import CryptoValid.Lib.Except
import CryptoValid.Lib.Json.Parse
import CryptoValid.Lib.Json.Print
import CryptoValid.Lib.Utf16

/-!
This module contains the round trip of JSON texts: what is printed is parsed back, whatever follows
it. The hooks only need to accept what is in the value, and its depth.
-/

namespace Json

/-!
### Strings
-/

/--
What the parser makes of the text of one character.
-/
def piecesOf (ascii : Bool) (c : CodePoint) : List Piece :=
  if (shortEscape? c).isSome then [.raw c]
  else if c.val < 0x20 then [.esc c]
  else if !ascii || c.val < 0x7f then [.raw c]
  else if c.val < 0x10000 then [.esc c]
  else
    [.esc (.ofNat (0xD800 + (c.val - 0x10000) / 0x400)),
      .esc (.ofNat (0xDC00 + (c.val - 0x10000) % 0x400))]

theorem hex4?_hex4 (n : Nat) (h : n < 0x10000)
    : hex4? (Hex.digit (n / 4096)) (Hex.digit (n / 256 % 16)) (Hex.digit (n / 16 % 16))
        (Hex.digit (n % 16)) = some (.ofNat n) := by
  simp only [hex4?, Hex.digit?_digit _ (show n / 4096 < 16 by omega),
    Hex.digit?_digit _ (show n / 256 % 16 < 16 by omega),
    Hex.digit?_digit _ (show n / 16 % 16 < 16 by omega),
    Hex.digit?_digit _ (show n % 16 < 16 by omega), Option.bind_eq_bind, Option.bind_some]
  have hn : n / 4096 * 4096 + n / 256 % 16 * 256 + n / 16 % 16 * 16 + n % 16 = n := by omega
  rw [hn]
  rfl

theorem scanPieces_quote (s : Str) : scanPieces (0x22 :: s) = some ([], s) := by
  rw [scanPieces.eq_def]
  rfl

theorem scanPieces_letter (letter c : CodePoint) (s : Str) (hu : letter ≠ 0x75)
    (hc : unescape? letter = some c)
    : scanPieces (0x5c :: letter :: s)
        =
      (scanPieces s).map fun (ps, rest) => (.raw c :: ps, rest) := by
  rw [scanPieces.eq_def]
  simp [hu, hc]

theorem scanPieces_raw (c : CodePoint) (s : Str) (hquote : c ≠ 0x22) (hslash : c ≠ 0x5c)
    (hctl : ¬c.val < 0x20)
    : scanPieces (c :: s) = (scanPieces s).map fun (ps, rest) => (.raw c :: ps, rest) := by
  rw [scanPieces.eq_def]
  simp [hquote, hslash, hctl]

theorem scanPieces_unicodeEscape (n : Nat) (h : n < 0x10000) (s : Str)
    : scanPieces (unicodeEscape n ++ s)
        =
      (scanPieces s).map fun (ps, rest) => (.esc (.ofNat n) :: ps, rest) := by
  have hslash : (CodePoint.ofNat 0x5c) = 0x5c := by decide
  have hletter : (CodePoint.ofNat 0x75) = 0x75 := by decide
  simp only [unicodeEscape, hex4, hslash, hletter, List.cons_append, List.nil_append]
  rw [scanPieces.eq_def]
  simp [hex4?_hex4 n h]

theorem shortEscape?_spec {c letter : CodePoint} (h : shortEscape? c = some letter)
    : letter ≠ 0x75 ∧ unescape? letter = some c := by
  unfold shortEscape? at h
  repeat' split at h
  all_goals
    simp only [Option.some.injEq, reduceCtorEq] at h
  all_goals
    subst c letter
    decide

theorem scanPieces_escape (ascii : Bool) (c : CodePoint) (s : Str)
    : scanPieces (escape ascii c ++ s)
        =
      (scanPieces s).map fun (ps, rest) => (piecesOf ascii c ++ ps, rest) := by
  have hlt := c.isLt
  unfold escape piecesOf
  cases hshort : shortEscape? c with
  | some letter =>
    rcases shortEscape?_spec hshort with ⟨hu, hun⟩
    exact scanPieces_letter letter c s hu hun
  | none =>
    simp only [Option.isSome_none, Bool.false_eq_true, ↓reduceIte]
    split
    . rw [scanPieces_unicodeEscape _ (by omega)]
      simp
    . next hctl =>
      split
      . refine scanPieces_raw c s ?_ ?_ hctl
        . rintro rfl
          simp [shortEscape?] at hshort
        . rintro rfl
          simp [shortEscape?] at hshort
      . split
        . rw [scanPieces_unicodeEscape _ (by omega)]
          simp
        . rw [List.append_assoc, scanPieces_unicodeEscape _ (by omega),
            scanPieces_unicodeEscape _ (by omega)]
          cases scanPieces s <;> rfl

theorem joinPieces_esc (lone : CodePoint → CodePoint) (c : CodePoint) (ps : List Piece)
    (hc : c.isSurrogate = false) : joinPieces lone (.esc c :: ps) = c :: joinPieces lone ps := by
  have hhigh : c.isHighSurrogate = false := by
    simp only [CodePoint.isSurrogate, CodePoint.isHighSurrogate, Bool.and_eq_false_iff,
      decide_eq_false_iff_not] at hc ⊢
    omega
  rcases ps with _ | ⟨d | d, ps⟩
  . simp [joinPieces, hc]
  . simp [joinPieces, hc]
  . simp [joinPieces, hc, hhigh]

theorem joinPieces_piecesOf (lone : CodePoint → CodePoint) (ascii : Bool) (c : CodePoint)
    (ps : List Piece) (hc : ascii = true → c.isSurrogate = false)
    : joinPieces lone (piecesOf ascii c ++ ps) = c :: joinPieces lone ps := by
  have hlt := c.isLt
  unfold piecesOf
  split
  . rfl
  . split
    . refine joinPieces_esc lone c ps ?_
      simp only [CodePoint.isSurrogate, Bool.and_eq_false_iff, decide_eq_false_iff_not]
      omega
    . split
      . rfl
      . next hraw =>
        simp only [Bool.or_eq_true, Bool.not_eq_eq_eq_not, Bool.not_true, decide_eq_true_eq,
          not_or, Bool.not_eq_false] at hraw
        split
        . exact joinPieces_esc lone c ps (hc hraw.1)
        . next hbig =>
          have hhi := CodePoint.val_ofNat (0xD800 + (c.val - 0x10000) / 0x400) (by omega)
          have hlo := CodePoint.val_ofNat (0xDC00 + (c.val - 0x10000) % 0x400) (by omega)
          have hpair : (CodePoint.ofNat (0xD800 + (c.val - 0x10000) / 0x400)).isHighSurrogate &&
              (CodePoint.ofNat (0xDC00 + (c.val - 0x10000) % 0x400)).isLowSurrogate := by
            simp only [CodePoint.isHighSurrogate, CodePoint.isLowSurrogate, hhi, hlo,
              Bool.and_eq_true, decide_eq_true_eq]
            omega
          have hcombine : combine (.ofNat (0xD800 + (c.val - 0x10000) / 0x400))
              (.ofNat (0xDC00 + (c.val - 0x10000) % 0x400)) = c := by
            apply Fin.ext
            rw [combine, hhi, hlo, CodePoint.val_ofNat _ (by omega)]
            omega
          simp only [List.cons_append, List.nil_append, joinPieces, hpair, ↓reduceIte, hcombine]

/--
The pieces that the text is written in are read as the text.
-/
def Kept (lone : CodePoint → CodePoint) (ascii : Bool) (s : Str) : Prop :=
  joinPieces lone (s.flatMap (piecesOf ascii)) = s

/--
Surrogates survive if they are written raw.
-/
theorem kept_of_scalar (lone : CodePoint → CodePoint) {ascii : Bool} {s : Str}
    (hs : ascii = true → Str.Scalar s) : Kept lone ascii s := by
  rw [Kept]
  induction s with
  | nil => rfl
  | cons c s ih =>
    rw [List.flatMap_cons, joinPieces_piecesOf lone ascii c _ ?_, ih ?_]
    . intro ha
      exact ((Str.scalar_cons c s).mp (hs ha)).2
    . intro ha
      exact ((Str.scalar_cons c s).mp (hs ha)).1

/--
The text of a string is parsed back.
-/
theorem scanString_escape {lone : CodePoint → CodePoint} {ascii : Bool} {s : Str} (rest : Str)
    (hs : Kept lone ascii s)
    : scanString lone (s.flatMap (escape ascii) ++ 0x22 :: rest) = some (s, rest) := by
  have hpieces : scanPieces (s.flatMap (escape ascii) ++ 0x22 :: rest)
      = some (s.flatMap (piecesOf ascii), rest) := by
    clear hs
    induction s with
    | nil => exact scanPieces_quote rest
    | cons c s ih =>
      rw [List.flatMap_cons, List.append_assoc, scanPieces_escape, ih]
      rfl
  rw [Kept] at hs
  simp only [scanString, hpieces, Option.map_some, hs]

/-!
### Numbers
-/

/--
What may follow a number without being taken for a part of it.
-/
def NumEnd : Str → Prop
  | [] => True
  | c :: _ => isDigit c = false ∧ c ≠ 0x2e ∧ c ≠ 0x65 ∧ c ≠ 0x45

theorem isDigit_digit (n : Nat) (h : n < 10) : isDigit (digit n) = true := by
  revert n
  decide

theorem natText_isDigit (n : Nat) : ∀ c ∈ natText n, isDigit c = true := by
  fun_induction natText n with
  | case1 n h =>
    simp only [List.mem_singleton, forall_eq]
    exact isDigit_digit n h
  | case2 n h ih =>
    simp only [List.mem_append, List.mem_singleton]
    rintro c (hc | rfl)
    . exact ih c hc
    . exact isDigit_digit _ (by omega)

theorem natText_ne_nil (n : Nat) : natText n ≠ [] := by
  rw [natText]
  split <;> simp

theorem natText_ne_zero (n : Nat) (hn : n ≠ 0) : natText n ≠ [0x30] := by
  rw [natText]
  split
  . next h =>
    have hdigit : ∀ n < 10, n ≠ 0 → [digit n] ≠ [0x30] := by decide
    exact hdigit n h hn
  . intro h
    have hlen := congrArg List.length h
    simp [natText_ne_nil] at hlen

/--
Only zero starts with a zero.
-/
theorem natText_eq_cons (n : Nat)
    : ∃ c cs, natText n = c :: cs ∧ isDigit c = true ∧ (c = 0x30 → cs = []) := by
  fun_induction natText n with
  | case1 n h => exact ⟨digit n, [], rfl, isDigit_digit n h, fun _ => rfl⟩
  | case2 n h ih =>
    rcases ih with ⟨c, cs, heq, hdigit, hzero⟩
    refine ⟨c, cs ++ [digit (n % 10)], by rw [heq]; rfl, hdigit, ?_⟩
    intro hc
    -- `n / 10` would be zero
    exact absurd (by rw [heq, hc, hzero hc]) (natText_ne_zero (n / 10) (by omega))

theorem natOfText_natText (n : Nat) : natOfText (natText n) = n := by
  fun_induction natText n with
  | case1 n h =>
    revert n
    decide
  | case2 n h ih =>
    have hdigit : ∀ d < 10, (digit d).val - 48 = d := by decide
    rw [natOfText] at ih
    rw [natOfText, List.foldl_append, ih, List.foldl_cons, List.foldl_nil, hdigit _ (by omega)]
    omega

theorem intOfText_intText (i : Int) : intOfText (intText i) = i := by
  have hsign : CodePoint.ofNat 0x2d = 0x2d := by decide
  rcases natText_eq_cons i.natAbs with ⟨c, cs, heq, hdigit, _⟩
  unfold intText
  split
  . simp only [hsign, intOfText, ↓reduceIte, natOfText_natText]
    omega
  . have hminus : c ≠ 0x2d := by
      rintro rfl
      exact absurd hdigit (by decide)
    have hnat := natOfText_natText i.natAbs
    rw [heq] at hnat ⊢
    simp only [intOfText, hminus, ↓reduceIte, hnat]
    omega

theorem intText_inj {i j : Int} (h : intText i = intText j) : i = j := by
  rw [← intOfText_intText i, h, intOfText_intText]

theorem takeWhile_append_of {α : Type} {p : α → Bool} {xs ys : List α} (hxs : ∀ x ∈ xs, p x = true)
    (hys : ∀ y, ys.head? = some y → p y = false)
    : (xs ++ ys).takeWhile p = xs ∧ (xs ++ ys).dropWhile p = ys := by
  induction xs with
  | nil =>
    cases ys with
    | nil => simp
    | cons y ys => simp [hys y rfl]
  | cons x xs ih =>
    have hx := hxs x List.mem_cons_self
    have ih := ih fun x hx => hxs x (List.mem_cons_of_mem _ hx)
    simp [hx, ih]

theorem scanNumber?.scanFraction_of_numEnd {s : Str} (h : NumEnd s)
    : scanNumber?.scanFraction s = ([], s) := by
  match s with
  | [] => rfl
  | [c] => rfl
  | c :: d :: rest => simp [scanNumber?.scanFraction, h.2.1]

theorem scanNumber?.scanExponent_of_numEnd {s : Str} (h : NumEnd s)
    : scanNumber?.scanExponent s = ([], s) := by
  match s with
  | [] => rfl
  | c :: rest => simp [scanNumber?.scanExponent, h.2.2.1, h.2.2.2]

theorem scanNumber?_intText (i : Int) (rest : Str) (h : NumEnd rest)
    : scanNumber? (intText i ++ rest) = some (intText i, false, rest) := by
  have hend : ∀ c, rest.head? = some c → isDigit c = false := by
    intro c hc
    match rest, hc with
    | d :: rest, hc =>
      simp only [List.head?_cons, Option.some.injEq] at hc
      exact hc ▸ h.1
  rcases natText_eq_cons i.natAbs with ⟨c, cs, heq, hdigit, hzero⟩
  have hspan := takeWhile_append_of (natText_isDigit i.natAbs) hend
  rw [heq] at hspan
  have hminus : c ≠ 0x2d := by
    rintro rfl
    simp [isDigit] at hdigit
  have hdigits : (if c = 0x30 then (([c], cs ++ rest) : Str × Str)
      else ((c :: (cs ++ rest)).takeWhile isDigit, (c :: (cs ++ rest)).dropWhile isDigit))
      = (c :: cs, rest) := by
    split
    . next hc => rw [hzero hc, List.nil_append]
    . rw [← List.cons_append, hspan.1, hspan.2]
  have hsign : CodePoint.ofNat 0x2d = 0x2d := by decide
  unfold intText
  split
  . simp only [heq, hsign, List.cons_append]
    rw [scanNumber?.eq_def]
    simp only [↓reduceIte, hdigit, Bool.not_true, Bool.false_eq_true,
      hdigits, scanNumber?.scanFraction_of_numEnd h, scanNumber?.scanExponent_of_numEnd h]
    simp
  . simp only [heq, List.cons_append]
    rw [scanNumber?.eq_def]
    simp only [hminus, ↓reduceIte, hdigit, Bool.not_true, Bool.false_eq_true,
      hdigits, scanNumber?.scanFraction_of_numEnd h, scanNumber?.scanExponent_of_numEnd h]
    simp

/-!
### Values
-/

theorem dictOfPairs_of_nodup {pairs : List (Str × Json)} (h : (pairs.map Prod.fst).Nodup)
    : dictOfPairs pairs = pairs := by
  have hgo : ∀ (rest : List (Str × Json)) (d : Dict Str Json),
      ((d.items ++ rest).map Prod.fst).Nodup →
      (rest.foldl (fun d p => d.set p.1 p.2) d).items = d.items ++ rest := by
    intro rest
    induction rest with
    | nil =>
      intro d _
      simp
    | cons p rest ih =>
      intro d hnodup
      have hnot : p.1 ∉ d.items.map Prod.fst := by
        intro hmem
        rw [List.map_append, List.nodup_append] at hnodup
        exact hnodup.2.2 p.1 hmem p.1 (by simp) rfl
      have hset : (d.set p.1 p.2).items = d.items ++ [p] := by
        rw [Dict.set, dif_neg hnot]
      rw [List.foldl_cons, ih, hset, List.append_assoc, List.singleton_append]
      rw [hset, List.append_assoc]
      exact hnodup
  have hrun := hgo pairs Dict.empty (by simpa [Dict.empty] using h)
  simpa [dictOfPairs, Dict.empty] using hrun

/--
The hooks take back what is printed of a value: no float, the same integer for its text, the same
members for the members, and no surrogates if they would be escaped.
-/
def Accepts {ε : Type} (H : Hooks ε) (ascii : Bool) : Json → Prop
  | .int i => H.parseInt (intText i) = .ok i
  | .float _ => False
  | .str s => ascii = true → Str.Scalar s
  | .obj ms => H.objectPairs ms = .ok ms ∧ (ascii = true → ∀ m ∈ ms, Str.Scalar m.1)
  | _ => True

/--
The same for texts that may have surrogates.
-/
def ReadsBack {ε : Type} (H : Hooks ε) (ascii : Bool) : Json → Prop
  | .int i => H.parseInt (intText i) = .ok i
  | .float _ => False
  | .str s => Kept H.lone ascii s
  | .obj ms => H.objectPairs ms = .ok ms ∧ ∀ m ∈ ms, Kept H.lone ascii m.1
  | _ => True

theorem Accepts.readsBack {ε : Type} {H : Hooks ε} {ascii : Bool} {v : Json}
    (h : Accepts H ascii v) : ReadsBack H ascii v := by
  cases v with
  | null => trivial
  | bool b => trivial
  | int i => exact h
  | float x => exact h
  | str s => exact kept_of_scalar H.lone h
  | arr xs => trivial
  | obj ms => exact ⟨h.1, fun m hm => kept_of_scalar H.lone fun ha => h.2 ha m hm⟩

theorem stripPrefix?_append (word rest : Str) : stripPrefix? word (word ++ rest) = some rest := by
  simp [stripPrefix?]

theorem stripPrefix?_of_head_ne (word : Str) (c d : CodePoint) (rest : Str) (h : c ≠ d)
    : stripPrefix? (c :: word) (d :: rest) = none := by
  simp [stripPrefix?, h]

/--
No token starts with a digit or a minus sign before a digit, except for numbers.
-/
theorem scanAtom_intText {ε : Type} (H : Hooks ε) (i : Int) (rest : Str) (h : NumEnd rest)
    (hi : H.parseInt (intText i) = .ok i)
    : scanAtom H (intText i ++ rest) = .ok (.int i, rest) := by
  rcases natText_eq_cons i.natAbs with ⟨c, cs, heq, hdigit, _⟩
  have hnum := scanNumber?_intText i rest h
  have hfail : ∀ d, isDigit d = false → d ≠ c := by
    rintro d hd rfl
    rw [hdigit] at hd
    exact absurd hd (by decide)
  have hne : ∀ word ∈ [txt "null", txt "true", txt "false", txt "NaN", txt "Infinity",
      txt "-Infinity"], stripPrefix? word (intText i ++ rest) = none := by
    intro word hword
    unfold intText
    split
    . -- a minus sign and a digit
      simp only [heq, List.cons_append]
      simp only [List.mem_cons, List.not_mem_nil, or_false] at hword
      rcases hword with rfl | rfl | rfl | rfl | rfl | rfl
      case inr.inr.inr.inr.inr =>
        have hinf := hfail 0x49 (by decide)
        have hword : txt "-Infinity" = 0x2d :: 0x49 :: txt "nfinity" := by decide
        simp [stripPrefix?, hword, hinf, show CodePoint.ofNat 0x2d = 0x2d from rfl]
      all_goals exact stripPrefix?_of_head_ne _ _ _ _ (by decide)
    . simp only [heq, List.cons_append]
      simp only [List.mem_cons, List.not_mem_nil, or_false] at hword
      rcases hword with rfl | rfl | rfl | rfl | rfl | rfl
      all_goals exact stripPrefix?_of_head_ne _ _ _ _ (hfail _ (by decide))
  simp only [List.mem_cons, List.not_mem_nil, or_false, forall_eq_or_imp, forall_eq] at hne
  rcases hne with ⟨h1, h2, h3, h4, h5, h6⟩
  simp only [scanAtom, h1, h2, h3, h4, h5, h6, hnum, hi, Except.ok_bind]
  rfl

theorem scanAtom_null {ε : Type} (H : Hooks ε) (rest : Str)
    : scanAtom H (txt "null" ++ rest) = .ok (.null, rest) := by
  simp only [scanAtom, stripPrefix?_append]

theorem scanAtom_true {ε : Type} (H : Hooks ε) (rest : Str)
    : scanAtom H (txt "true" ++ rest) = .ok (.bool true, rest) := by
  have hnull : stripPrefix? (txt "null") (txt "true" ++ rest) = none :=
    stripPrefix?_of_head_ne _ _ _ _ (by decide)
  simp only [scanAtom, hnull, stripPrefix?_append]

theorem scanAtom_false {ε : Type} (H : Hooks ε) (rest : Str)
    : scanAtom H (txt "false" ++ rest) = .ok (.bool false, rest) := by
  have hnull : stripPrefix? (txt "null") (txt "false" ++ rest) = none :=
    stripPrefix?_of_head_ne _ _ _ _ (by decide)
  have htrue : stripPrefix? (txt "true") (txt "false" ++ rest) = none :=
    stripPrefix?_of_head_ne _ _ _ _ (by decide)
  simp only [scanAtom, hnull, htrue, stripPrefix?_append]

theorem scanValue_atom {ε : Type} (H : Hooks ε) (fuel depth : Nat) (c : CodePoint) (s : Str)
    (hc : c ≠ 0x22 ∧ c ≠ 0x5b ∧ c ≠ 0x7b)
    : scanValue H (fuel + 1) depth (c :: s) = scanAtom H (c :: s) := by
  simp [scanValue, hc]

/-!
### Layouts
-/

/--
There is nothing but blanks in a layout.
-/
structure Layout.Blank (L : Layout) : Prop where
  opening : ∀ level, (L.opening level).all isSpace = true
  comma : ∀ level, (L.comma level).all isSpace = true
  closing : ∀ level, (L.closing level).all isSpace = true
  colon : L.colon.all isSpace = true

theorem Layout.blank_compact : Layout.compact.Blank :=
  ⟨fun _ => rfl, fun _ => rfl, fun _ => rfl, rfl⟩

theorem Layout.blank_spaced : Layout.spaced.Blank :=
  ⟨fun _ => rfl, fun _ => rfl, fun _ => rfl, rfl⟩

theorem Layout.blank_indented : Layout.indented.Blank := by
  have hline : ∀ level, (0x0a :: List.replicate level (0x20 : CodePoint)).all isSpace = true := by
    intro level
    have hspace : isSpace 0x20 = true := by decide
    have hnl : isSpace 0x0a = true := by decide
    simp [hspace, hnl]
  exact ⟨hline, hline, hline, rfl⟩

/--
The compact layout has no blanks.
-/
theorem dumpsIn_compact (ascii : Bool) (v : Json) (level : Nat)
    : dumpsIn .compact ascii level v = dumps ascii v := by
  have htail : ∀ xs : List Json, (∀ x ∈ xs, ∀ level, dumpsIn .compact ascii level x = dumps ascii x) →
      ∀ level, dumpsInTail .compact ascii level xs = dumpsTail ascii xs := by
    intro xs
    induction xs with
    | nil => exact fun _ _ => rfl
    | cons x xs ih =>
      intro h level
      rw [dumpsInTail, dumpsTail, h x List.mem_cons_self,
        ih (fun y hy => h y (List.mem_cons_of_mem _ hy))]
      rfl
  have hmembers : ∀ ms : List (Str × Json),
      (∀ m ∈ ms, ∀ level, dumpsIn .compact ascii level m.2 = dumps ascii m.2) →
      ∀ level, dumpsInMembers .compact ascii level ms = dumpsMembers ascii ms := by
    intro ms
    induction ms with
    | nil => exact fun _ _ => rfl
    | cons m ms ih =>
      rcases m with ⟨k, v⟩
      intro h level
      rw [dumpsInMembers, dumpsMembers, h (k, v) List.mem_cons_self,
        ih (fun y hy => h y (List.mem_cons_of_mem _ hy))]
      rfl
  induction v generalizing level with
  | arr xs ih =>
    cases xs with
    | nil => rfl
    | cons x xs =>
      rw [dumpsIn, dumps, ih x List.mem_cons_self,
        htail xs fun y hy => ih y (List.mem_cons_of_mem _ hy)]
      rfl
  | obj ms ih =>
    rcases ms with _ | ⟨⟨k, v⟩, ms⟩
    . rfl
    . rw [dumpsIn, dumps, ih (k, v) List.mem_cons_self,
        hmembers ms fun y hy => ih y (List.mem_cons_of_mem _ hy)]
      rfl
  | bool b => cases b <;> rfl
  | _ => rfl

/--
A printed value starts with a character that is not a blank and that closes nothing.
-/
theorem dumpsIn_eq_cons (L : Layout) (ascii : Bool) (level : Nat) (v : Json) (hv : NotFloat v)
    : ∃ c s, dumpsIn L ascii level v = c :: s ∧ isSpace c = false ∧ c ≠ 0x5d ∧ c ≠ 0x7d := by
  match v with
  | .null => exact ⟨_, _, rfl, by decide⟩
  | .bool true => exact ⟨_, _, rfl, by decide⟩
  | .bool false => exact ⟨_, _, rfl, by decide⟩
  | .int i =>
    rcases natText_eq_cons i.natAbs with ⟨c, cs, heq, hdigit, _⟩
    simp only [dumpsIn, intText]
    split
    . exact ⟨_, _, rfl, by decide⟩
    . refine ⟨c, cs, heq, ?_, ?_, ?_⟩
      . simp only [isDigit, Bool.and_eq_true, decide_eq_true_eq] at hdigit
        simp only [isSpace, Bool.or_eq_false_iff, decide_eq_false_iff_not, Fin.ext_iff]
        have h1 : ((0x20 : CodePoint) : Nat) = 32 := rfl
        have h2 : ((0x09 : CodePoint) : Nat) = 9 := rfl
        have h3 : ((0x0a : CodePoint) : Nat) = 10 := rfl
        have h4 : ((0x0d : CodePoint) : Nat) = 13 := rfl
        omega
      . rintro rfl
        exact absurd hdigit (by decide)
      . rintro rfl
        exact absurd hdigit (by decide)
  | .float x => exact absurd hv (by simp [NotFloat])
  | .str s => exact ⟨_, _, rfl, by decide⟩
  | .arr [] => exact ⟨_, _, rfl, by decide⟩
  | .arr (x :: xs) => exact ⟨_, _, by rw [dumpsIn], by decide⟩
  | .obj [] => exact ⟨_, _, rfl, by decide⟩
  | .obj ((k, v) :: ms) => exact ⟨_, _, by rw [dumpsIn], by decide⟩

theorem dumps_eq_cons (ascii : Bool) (v : Json) (hv : NotFloat v)
    : ∃ c s, dumps ascii v = c :: s ∧ isSpace c = false ∧ c ≠ 0x5d ∧ c ≠ 0x7d := by
  rw [← dumpsIn_compact ascii v 0]
  exact dumpsIn_eq_cons .compact ascii 0 v hv

theorem length_dumpsIn_pos (L : Layout) (ascii : Bool) (level : Nat) (v : Json) (hv : NotFloat v)
    : 0 < (dumpsIn L ascii level v).length := by
  rcases dumpsIn_eq_cons L ascii level v hv with ⟨c, s, heq, _⟩
  simp [heq]

theorem head_intText {i : Int} {c : CodePoint} {s : Str} (h : intText i = c :: s)
    : c ≠ 0x22 ∧ c ≠ 0x5b ∧ c ≠ 0x7b := by
  rcases natText_eq_cons i.natAbs with ⟨d, ds, heq, hdigit, _⟩
  simp only [intText] at h
  split at h
  . rw [← (List.cons.inj h).1]
    decide
  . rw [heq] at h
    rw [← (List.cons.inj h).1]
    refine ⟨?_, ?_, ?_⟩
    all_goals
      rintro rfl
      exact absurd hdigit (by decide)

theorem skipSpace_cons (c : CodePoint) (s : Str) (hc : isSpace c = false)
    : skipSpace (c :: s) = c :: s := by
  simp [skipSpace, hc]

theorem skipSpace_blanks {blanks : Str} (hblanks : blanks.all isSpace = true) (c : CodePoint)
    (s : Str) (hc : isSpace c = false) : skipSpace (blanks ++ c :: s) = c :: s := by
  rw [skipSpace, List.dropWhile_append_of_pos (List.all_eq_true.mp hblanks), ← skipSpace,
    skipSpace_cons c s hc]

theorem skipSpace_dumpsIn (L : Layout) (ascii : Bool) (level : Nat) (v : Json) (hv : NotFloat v)
    {blanks : Str} (hblanks : blanks.all isSpace = true) (rest : Str)
    : skipSpace (blanks ++ (dumpsIn L ascii level v ++ rest)) = dumpsIn L ascii level v ++ rest := by
  rcases dumpsIn_eq_cons L ascii level v hv with ⟨c, s, heq, hspace, _⟩
  rw [heq, List.cons_append, skipSpace_blanks hblanks _ _ hspace]

theorem numEnd_of_isSpace {c : CodePoint} (h : isSpace c = true) (s : Str) : NumEnd (c :: s) := by
  simp only [isSpace, Bool.or_eq_true, decide_eq_true_eq] at h
  rcases h with ((rfl | rfl) | rfl) | rfl <;> exact ⟨by decide, by decide, by decide, by decide⟩

theorem numEnd_blanks {blanks : Str} (hblanks : blanks.all isSpace = true) {c : CodePoint}
    {s : Str} (hc : NumEnd (c :: s)) : NumEnd (blanks ++ c :: s) := by
  cases blanks with
  | nil => exact hc
  | cons b blanks =>
    rw [List.all_cons, Bool.and_eq_true] at hblanks
    exact numEnd_of_isSpace hblanks.1 _

theorem numEnd_dumpsInTail {L : Layout} (hL : L.Blank) (ascii : Bool) (level level' : Nat)
    (xs : List Json) (rest : Str)
    : NumEnd (dumpsInTail L ascii level xs ++ (L.closing level' ++ 0x5d :: rest)) := by
  cases xs with
  | nil =>
    exact numEnd_blanks (hL.closing level') ⟨by decide, by decide, by decide, by decide⟩
  | cons x xs => exact ⟨by decide, by decide, by decide, by decide⟩

theorem numEnd_dumpsInMembers {L : Layout} (hL : L.Blank) (ascii : Bool) (level level' : Nat)
    (ms : List (Str × Json)) (rest : Str)
    : NumEnd (dumpsInMembers L ascii level ms ++ (L.closing level' ++ 0x7d :: rest)) := by
  cases ms with
  | nil =>
    exact numEnd_blanks (hL.closing level') ⟨by decide, by decide, by decide, by decide⟩
  | cons m ms => exact ⟨by decide, by decide, by decide, by decide⟩

/--
The text of `v` is parsed back by `scanValue`, whatever follows it, with its length as fuel.
-/
def ScansBack {ε : Type} (H : Hooks ε) (L : Layout) (ascii : Bool) (v : Json) : Prop :=
  NotFloat v ∧ ∀ (level fuel depth : Nat) (rest : Str),
    (dumpsIn L ascii level v).length ≤ fuel → v.depth ≤ depth → NumEnd rest →
    scanValue H fuel depth (dumpsIn L ascii level v ++ rest) = .ok (v, rest)

section

variable {ε : Type} (H : Hooks ε) {L : Layout} (hL : L.Blank) (ascii : Bool) (level level' : Nat)

include hL

theorem scanElems_dumpsIn (x : Json) (xs : List Json)
    (hback : ∀ y ∈ x :: xs, ScansBack H L ascii y) (fuel depth : Nat) (rest : Str)
    (hfuel : (dumpsIn L ascii level x).length + (dumpsInTail L ascii level xs).length < fuel)
    (hdepth : depthElems (x :: xs) ≤ depth)
    : scanElems H fuel depth (dumpsIn L ascii level x ++
          (dumpsInTail L ascii level xs ++ (L.closing level' ++ 0x5d :: rest)))
        =
      .ok (x :: xs, rest) := by
  induction xs generalizing x fuel with
  | nil =>
    match fuel with
    | 0 => omega
    | fuel + 1 =>
      rw [depthElems_le_iff] at hdepth
      have hx := (hback x List.mem_cons_self).2 level fuel depth
        (dumpsInTail L ascii level [] ++ (L.closing level' ++ 0x5d :: rest)) (by omega)
        (hdepth x List.mem_cons_self) (numEnd_dumpsInTail hL _ _ _ _ _)
      rw [scanElems, hx, Except.ok_bind]
      simp only [dumpsInTail, List.nil_append,
        skipSpace_blanks (hL.closing level') 0x5d rest (by decide)]
      rfl
  | cons y ys ih =>
    match fuel with
    | 0 => omega
    | fuel + 1 =>
      have hdepth' := (depthElems_le_iff _ _).mp hdepth
      have hy := hback y (List.mem_cons_of_mem _ List.mem_cons_self)
      simp only [dumpsInTail, List.length_cons, List.length_append] at hfuel
      have hx := (hback x List.mem_cons_self).2 level fuel depth
        (dumpsInTail L ascii level (y :: ys) ++ (L.closing level' ++ 0x5d :: rest)) (by omega)
        (hdepth' x List.mem_cons_self) (numEnd_dumpsInTail hL _ _ _ _ _)
      have hys := ih y (fun z hz => hback z (List.mem_cons_of_mem _ hz)) fuel (by omega)
        ((depthElems_le_iff _ _).mpr fun z hz => hdepth' z (List.mem_cons_of_mem _ hz))
      have hcomma : isSpace 0x2c = false := by decide
      rw [scanElems, hx, Except.ok_bind]
      simp only [dumpsInTail, List.cons_append, List.append_assoc, skipSpace_cons _ _ hcomma,
        skipSpace_dumpsIn L ascii level y hy.1 (hL.comma level), hys, Except.ok_bind]
      rfl

theorem scanMembers_dumpsIn (k : Str) (v : Json) (ms : List (Str × Json))
    (hback : ∀ m ∈ (k, v) :: ms, Kept H.lone ascii m.1 ∧ ScansBack H L ascii m.2)
    (fuel depth : Nat) (rest : Str)
    (hfuel : (dumpsIn L ascii level v).length + (dumpsInMembers L ascii level ms).length < fuel)
    (hdepth : depthMembers ((k, v) :: ms) ≤ depth)
    : scanMembers H fuel depth (stringText ascii k ++ (0x3a :: (L.colon ++
          (dumpsIn L ascii level v ++
            (dumpsInMembers L ascii level ms ++ (L.closing level' ++ 0x7d :: rest))))))
        =
      .ok ((k, v) :: ms, rest) := by
  have hcolon : isSpace 0x3a = false := by decide
  induction ms generalizing k v fuel with
  | nil =>
    match fuel with
    | 0 => omega
    | fuel + 1 =>
      rw [depthMembers_le_iff] at hdepth
      rcases hback (k, v) List.mem_cons_self with ⟨hkey, hval⟩
      have hv := hval.2 level fuel depth
        (dumpsInMembers L ascii level [] ++ (L.closing level' ++ 0x7d :: rest))
        (by simp only; omega) (hdepth _ List.mem_cons_self) (numEnd_dumpsInMembers hL _ _ _ _ _)
      simp only [stringText, List.cons_append, List.append_assoc, List.nil_append, scanMembers,
        scanString_escape _ hkey, skipSpace_cons _ _ hcolon,
        skipSpace_dumpsIn L ascii level v hval.1 hL.colon, hv, Except.ok_bind]
      simp only [dumpsInMembers, List.nil_append,
        skipSpace_blanks (hL.closing level') 0x7d rest (by decide)]
      rfl
  | cons m ms ih =>
    rcases m with ⟨l, w⟩
    match fuel with
    | 0 => omega
    | fuel + 1 =>
      have hdepth' := (depthMembers_le_iff _ _).mp hdepth
      rcases hback (k, v) List.mem_cons_self with ⟨hkey, hval⟩
      simp only [dumpsInMembers, List.length_cons, List.length_append] at hfuel
      have hv := hval.2 level fuel depth
        (dumpsInMembers L ascii level ((l, w) :: ms) ++ (L.closing level' ++ 0x7d :: rest))
        (by simp only; omega) (hdepth' _ List.mem_cons_self) (numEnd_dumpsInMembers hL _ _ _ _ _)
      have hms := ih l w (fun z hz => hback z (List.mem_cons_of_mem _ hz)) fuel (by omega)
        ((depthMembers_le_iff _ _).mpr fun z hz => hdepth' z (List.mem_cons_of_mem _ hz))
      have hcomma : isSpace 0x2c = false := by decide
      have hquote : isSpace 0x22 = false := by decide
      simp only [stringText, List.cons_append, List.append_assoc, List.nil_append] at hms ⊢
      rw [scanMembers]
      simp only [scanString_escape _ hkey, skipSpace_cons _ _ hcolon,
        skipSpace_dumpsIn L ascii level v hval.1 hL.colon, hv, Except.ok_bind]
      simp only [dumpsInMembers, stringText, List.cons_append, List.append_assoc, List.nil_append,
        skipSpace_cons _ _ hcomma, skipSpace_blanks (hL.comma level) _ _ hquote, hms,
        Except.ok_bind]
      rfl

theorem scansBack_arr {xs : List Json} (hback : ∀ x ∈ xs, ScansBack H L ascii x)
    : ScansBack H L ascii (.arr xs) := by
  refine ⟨trivial, ?_⟩
  intro level fuel depth rest hfuel hdepth _
  rcases fuel with _ | fuel
  . cases xs <;> simp [dumpsIn] at hfuel
  . rcases depth with _ | depth
    . simp [Json.depth] at hdepth
    cases xs with
    | nil => rfl
    | cons x xs =>
      rcases dumpsIn_eq_cons L ascii (level + 1) x (hback x List.mem_cons_self).1 with
        ⟨c, s, heq, hspace, hc, _⟩
      have hlen : (dumpsIn L ascii (level + 1) x).length +
          (dumpsInTail L ascii (level + 1) xs).length < fuel := by
        simp only [dumpsIn, List.length_cons, List.length_append, List.length_nil] at hfuel
        omega
      have helems := scanElems_dumpsIn H hL ascii (level + 1) level x xs hback fuel depth rest
        hlen (by simpa [Json.depth] using hdepth)
      rw [heq, List.cons_append] at helems
      simp only [dumpsIn, List.cons_append, List.append_assoc, List.nil_append, heq, scanValue,
        skipSpace_blanks (hL.opening _) _ _ hspace, hc, ↓reduceIte, helems, Except.ok_bind]
      rfl

theorem scansBack_obj {ms : List (Str × Json)} (hpairs : H.objectPairs ms = .ok ms)
    (hback : ∀ m ∈ ms, Kept H.lone ascii m.1 ∧ ScansBack H L ascii m.2)
    : ScansBack H L ascii (.obj ms) := by
  refine ⟨trivial, ?_⟩
  intro level fuel depth rest hfuel hdepth _
  rcases fuel with _ | fuel
  . rcases ms with _ | ⟨⟨k, v⟩, ms⟩ <;> simp [dumpsIn] at hfuel
  . rcases depth with _ | depth
    . simp [Json.depth] at hdepth
    rcases ms with _ | ⟨⟨k, v⟩, ms⟩
    . have hbrace : isSpace 0x7d = false := by decide
      simp only [dumpsIn, List.cons_append, List.nil_append, scanValue,
        skipSpace_cons _ _ hbrace, ↓reduceIte, hpairs, Except.ok_bind]
      rfl
    . have hlen : (dumpsIn L ascii (level + 1) v).length +
          (dumpsInMembers L ascii (level + 1) ms).length < fuel := by
        simp only [dumpsIn, List.length_cons, List.length_append, List.length_nil] at hfuel
        omega
      have hmembers := scanMembers_dumpsIn H hL ascii (level + 1) level k v ms hback fuel depth
        rest hlen (by simpa [Json.depth] using hdepth)
      have hquote : isSpace 0x22 = false := by decide
      simp only [stringText, List.cons_append, List.append_assoc, List.nil_append] at hmembers
      simp only [dumpsIn, stringText, List.cons_append, List.append_assoc, List.nil_append,
        scanValue, skipSpace_blanks (hL.opening _) _ _ hquote]
      rw [hmembers]
      simp only [Except.ok_bind, hpairs]
      rfl

/--
The induction over the value: its parts are parsed back, so it is.
-/
theorem scansBack_of_readsBack (v : Json) (hv : All (ReadsBack H ascii) v)
    : ScansBack H L ascii v := by
  induction v with
  | null =>
    refine ⟨trivial, ?_⟩
    intro level fuel depth rest hfuel _ _
    have hpos := length_dumpsIn_pos L ascii level .null trivial
    cases fuel with
    | zero => omega
    | succ fuel =>
      rw [← scanAtom_null H rest]
      exact scanValue_atom H fuel depth _ _ (by decide)
  | bool b =>
    refine ⟨trivial, ?_⟩
    intro level fuel depth rest hfuel _ _
    have hpos := length_dumpsIn_pos L ascii level (.bool b) trivial
    cases fuel with
    | zero => omega
    | succ fuel =>
      cases b with
      | true =>
        rw [← scanAtom_true H rest]
        exact scanValue_atom H fuel depth _ _ (by decide)
      | false =>
        rw [← scanAtom_false H rest]
        exact scanValue_atom H fuel depth _ _ (by decide)
  | int i =>
    refine ⟨trivial, ?_⟩
    intro level fuel depth rest hfuel _ hend
    have hpos := length_dumpsIn_pos L ascii level (.int i) trivial
    rcases dumpsIn_eq_cons L ascii level (.int i) trivial with ⟨c, s, heq, _⟩
    cases fuel with
    | zero => omega
    | succ fuel =>
      rw [← scanAtom_intText H i rest hend hv]
      simp only [dumpsIn] at heq ⊢
      have hc : c ≠ 0x22 ∧ c ≠ 0x5b ∧ c ≠ 0x7b := head_intText heq
      rw [heq, List.cons_append, scanValue_atom H fuel depth _ _ hc]
  | float x => exact absurd hv (by simp [All, ReadsBack])
  | str s =>
    refine ⟨trivial, ?_⟩
    intro level fuel depth rest hfuel _ _
    cases fuel with
    | zero => simp [dumpsIn, stringText] at hfuel
    | succ fuel =>
      simp only [dumpsIn, stringText, List.cons_append, List.append_assoc, List.nil_append,
        scanValue, scanString_escape _ hv]
      rfl
  | arr xs ih =>
    rw [all_arr] at hv
    exact scansBack_arr H hL ascii fun x hx => ih x hx (hv.2 x hx)
  | obj ms ih =>
    rw [all_obj] at hv
    exact scansBack_obj H hL ascii hv.1.1 fun m hm => ⟨hv.1.2 m hm, ih m hm (hv.2 m hm)⟩

/--
Round trip: a printed value is loaded as it was, in whatever layout.
-/
theorem loads_dumpsIn_of_readsBack (v : Json) (hv : All (ReadsBack H ascii) v)
    (hdepth : v.depth ≤ H.maxDepth) : loads H (dumpsIn L ascii level v) = .ok v := by
  rcases scansBack_of_readsBack H hL ascii v hv with ⟨hfloat, hscan⟩
  have hblanks : ([] : Str).all isSpace = true := rfl
  have hspace := skipSpace_dumpsIn L ascii level v hfloat hblanks []
  have hvalue := hscan level ((dumpsIn L ascii level v).length + 1) H.maxDepth [] (by omega) hdepth
    trivial
  rw [List.append_nil] at hvalue
  rw [List.append_nil, List.nil_append] at hspace
  rw [loads, hspace, hvalue]
  rfl

theorem loads_dumpsIn (v : Json) (hv : All (Accepts H ascii) v) (hdepth : v.depth ≤ H.maxDepth)
    : loads H (dumpsIn L ascii level v) = .ok v :=
  loads_dumpsIn_of_readsBack H hL ascii level v (hv.imp fun _ h => h.readsBack) hdepth

end

theorem loads_dumps {ε : Type} (H : Hooks ε) (ascii : Bool) (v : Json)
    (hv : All (Accepts H ascii) v) (hdepth : v.depth ≤ H.maxDepth)
    : loads H (dumps ascii v) = .ok v := by
  rw [← dumpsIn_compact ascii v 0]
  exact loads_dumpsIn H Layout.blank_compact ascii 0 v hv hdepth

/--
Hooks that take everything as it is.
-/
def plain (maxDepth : Nat) : Hooks Unit where
  syntaxError := ()
  recursionError := ()
  parseInt text := .ok (intOfText text)
  parseFloat _ := .error ()
  parseConstant _ := .error ()
  objectPairs := .ok
  lone := id
  maxDepth

theorem loads_plain_dumps (ascii : Bool) (v : Json) (hfloat : All NotFloat v)
    (hscalar : ascii = true → All ScalarText v) (hdepth : v.depth ≤ d)
    : loads (plain d) (dumps ascii v) = .ok v := by
  refine loads_dumps _ ascii v ?_ hdepth
  have hboth : All (fun v => NotFloat v ∧ (ascii = true → ScalarText v)) v := by
    refine hfloat.and ?_
    cases ascii with
    | true => exact (hscalar rfl).imp fun _ h _ => h
    | false => exact hfloat.imp fun _ _ h => absurd h (by simp)
  refine hboth.imp ?_
  rintro v ⟨hfloat, hscalar⟩
  cases v with
  | null => trivial
  | bool b => trivial
  | int i => simp [Accepts, plain, intOfText_intText]
  | float x => exact hfloat
  | str s => exact hscalar
  | arr xs => trivial
  | obj ms => exact ⟨rfl, hscalar⟩

/--
A text determines the value it is printed from.
-/
theorem dumps_inj (ascii : Bool) {v w : Json} (hv : All NotFloat v) (hw : All NotFloat w)
    (hsv : ascii = true → All ScalarText v) (hsw : ascii = true → All ScalarText w)
    (h : dumps ascii v = dumps ascii w) : v = w := by
  have hloadv := loads_plain_dumps ascii v hv hsv (Nat.le_max_left v.depth w.depth)
  have hloadw := loads_plain_dumps ascii w hw hsw (Nat.le_max_right v.depth w.depth)
  rw [h, hloadw] at hloadv
  exact (Except.ok.inj hloadv).symm

/--
The rest of an object leaves the text of a member as it is.
-/
theorem exists_dumps_member (ascii : Bool) (ms ns : List (Str × Json)) (k : Str)
    : ∃ pre post, ∀ v, dumps ascii (.obj (ms ++ (k, v) :: ns)) = pre ++ (dumps ascii v ++ post) := by
  have htail : ∀ ms : List (Str × Json), ∃ pre post, ∀ v,
      dumpsMembers ascii (ms ++ (k, v) :: ns) = pre ++ (dumps ascii v ++ post) := by
    intro ms
    induction ms with
    | nil =>
      refine ⟨0x2c :: (stringText ascii k ++ [0x3a]), dumpsMembers ascii ns, fun v => ?_⟩
      simp [dumpsMembers]
    | cons m ms ih =>
      rcases ih with ⟨pre, post, h⟩
      rcases m with ⟨l, w⟩
      refine ⟨0x2c :: (stringText ascii l ++ (0x3a :: (dumps ascii w ++ pre))), post, fun v => ?_⟩
      simp [dumpsMembers, h v]
  cases ms with
  | nil =>
    refine ⟨0x7b :: (stringText ascii k ++ [0x3a]), dumpsMembers ascii ns ++ [0x7d], fun v => ?_⟩
    simp [dumps]
  | cons m ms =>
    rcases htail ms with ⟨pre, post, h⟩
    rcases m with ⟨l, w⟩
    refine ⟨0x7b :: (stringText ascii l ++ (0x3a :: (dumps ascii w ++ pre))), post ++ [0x7d],
      fun v => ?_⟩
    simp [dumps, h v]

theorem dumps_member_inj {ascii : Bool} {ms ns : List (Str × Json)} {k : Str} {v w : Json}
    (h : dumps ascii (.obj (ms ++ (k, v) :: ns)) = dumps ascii (.obj (ms ++ (k, w) :: ns)))
    : dumps ascii v = dumps ascii w := by
  rcases exists_dumps_member ascii ms ns k with ⟨pre, post, htext⟩
  rw [htext, htext] at h
  exact List.append_cancel_right (List.append_cancel_left h)

/-!
### Surrogate pairs
-/

/--
No high surrogate has a low one right after it: the two would be written, and read, as the character
that they stand for.
-/
def unpaired : Str → Bool
  | c :: d :: s => !(c.isHighSurrogate && d.isLowSurrogate) && unpaired (d :: s)
  | _ => true

theorem shortEscape?_of_surrogate {c : CodePoint} (hc : c.isSurrogate = true)
    : shortEscape? c = none := by
  have hval : 0xD800 ≤ c.val := by
    simp only [CodePoint.isSurrogate, Bool.and_eq_true, decide_eq_true_eq] at hc
    exact hc.1
  have hne : ∀ d : CodePoint, d.val < 0xD800 → c ≠ d := by
    rintro d hd rfl
    omega
  simp [shortEscape?, hne]

theorem unpaired_cons_of {c : CodePoint} {s : Str} (hs : unpaired s = true)
    (hpair : ∀ d ∈ s.head?, c.isHighSurrogate = true → d.isLowSurrogate = false)
    : unpaired (c :: s) = true := by
  cases s with
  | nil => rfl
  | cons d s =>
    rw [unpaired, hs, Bool.and_true, Bool.not_eq_true', Bool.and_eq_false_imp]
    exact hpair d rfl

/--
Units are joined into a text without pairs.
-/
theorem unpaired_join {us : List Nat} (hus : ∀ u ∈ us, u < 0x10000)
    : unpaired (Utf16.join us) = true := by
  fun_induction Utf16.join us with
  | case1 => rfl
  | case2 u => rfl
  | case3 u l us hpair ih =>
    simp only [List.forall_mem_cons] at hus
    refine unpaired_cons_of (ih hus.2.2) fun d _ hhigh => ?_
    rw [CodePoint.isHighSurrogate, CodePoint.val_ofNat _ (by omega)] at hhigh
    simp only [Bool.and_eq_true, decide_eq_true_eq] at hhigh
    omega
  | case4 u l us hpair ih =>
    simp only [List.forall_mem_cons] at hus
    refine unpaired_cons_of (ih (List.forall_mem_cons.mpr hus.2)) fun d hd hhigh => ?_
    rw [CodePoint.isHighSurrogate, CodePoint.val_ofNat _ (by omega)] at hhigh
    simp only [Bool.and_eq_true, decide_eq_true_eq] at hhigh
    -- the text after `u` starts with the unit `l`, or with the character that `l` begins
    have hval : d.val = l ∨ 0x10000 ≤ d.val := by
      rcases us with _ | ⟨k, us⟩
      . rw [Utf16.join, List.head?_cons, Option.mem_some_iff] at hd
        rw [← hd, CodePoint.val_ofNat _ (by omega)]
        exact Or.inl rfl
      . unfold Utf16.join at hd
        simp only [List.forall_mem_cons] at hus
        split at hd
        . rw [List.head?_cons, Option.mem_some_iff] at hd
          rw [← hd, CodePoint.val_ofNat _ (by omega)]
          exact Or.inr (by omega)
        . rw [List.head?_cons, Option.mem_some_iff] at hd
          rw [← hd, CodePoint.val_ofNat _ (by omega)]
          exact Or.inl rfl
    simp only [CodePoint.isLowSurrogate, Bool.and_eq_false_iff, decide_eq_false_iff_not]
    omega

theorem join_units {s : Str} (hs : unpaired s = true) : Utf16.join (Utf16.units s) = s := by
  induction s with
  | nil => rfl
  | cons c s ih =>
    have hlt := c.isLt
    have hrest : unpaired s = true := by
      cases s with
      | nil => rfl
      | cons d s => exact (Bool.and_eq_true_iff.mp hs).2
    have hself : CodePoint.ofNat c.val = c := Fin.ext (CodePoint.val_ofNat _ hlt)
    rw [Utf16.units_cons, Utf16.unitsOf]
    split
    . next hsmall =>
      rw [List.singleton_append]
      cases s with
      | nil => simp [Utf16.units, Utf16.join, hself]
      | cons d s =>
        have hnot := (Bool.and_eq_true_iff.mp hs).1
        simp only [Bool.not_eq_true', Bool.and_eq_false_iff, CodePoint.isHighSurrogate,
          CodePoint.isLowSurrogate, decide_eq_false_iff_not] at hnot
        have ih := ih hrest
        have hltd := d.isLt
        rcases hunits : Utf16.units (d :: s) with _ | ⟨l, us⟩
        . rw [Utf16.units_cons, List.append_eq_nil_iff] at hunits
          exact absurd hunits.1 (Utf16.unitsOf_ne_nil d)
        . rw [hunits] at ih
          have hl : l = d.val ∨ l < 0xDC00 := by
            rw [Utf16.units_cons, Utf16.unitsOf] at hunits
            split at hunits
            . exact Or.inl (List.cons.inj hunits).1.symm
            . have hhead := (List.cons.inj hunits).1
              exact Or.inr (by omega)
          rw [Utf16.join, if_neg (by omega), hself, ih]
    . next hlarge =>
      have hpair : 0x10000 + (0xD800 + (c.val - 0x10000) / 0x400 - 0xD800) * 0x400 +
          (0xDC00 + (c.val - 0x10000) % 0x400 - 0xDC00) = c.val := by
        omega
      rw [List.cons_append, List.cons_append, List.nil_append, Utf16.join, if_pos (by omega),
        ih hrest, hpair, hself]

/--
A character is written in ASCII as its units are.
-/
theorem escape_eq_units (c : CodePoint)
    : escape true c = (Utf16.unitsOf c).flatMap fun u => escape true (.ofNat u) := by
  have hlt := c.isLt
  rw [Utf16.unitsOf]
  split
  . rw [List.flatMap_singleton]
    exact congrArg _ (Fin.ext (CodePoint.val_ofNat _ hlt).symm)
  . next hlarge =>
    have hunit : ∀ u, 0xD800 ≤ u → u ≤ 0xDFFF → escape true (.ofNat u) = unicodeEscape u := by
      intro u hlo hhi
      have hval := CodePoint.val_ofNat u (by omega)
      have hsurrogate : (CodePoint.ofNat u).isSurrogate = true := by
        simp only [CodePoint.isSurrogate, hval, Bool.and_eq_true, decide_eq_true_eq]
        omega
      rw [escape, shortEscape?_of_surrogate hsurrogate]
      dsimp only
      rw [hval, if_neg (by omega), if_neg (by simp; omega), if_pos (by omega)]
    have hshort : shortEscape? c = none := by
      have hne : ∀ d : CodePoint, d.val < 0x10000 → c ≠ d := by
        rintro d hd rfl
        omega
      simp [shortEscape?, hne]
    rw [List.flatMap_cons, List.flatMap_cons, List.flatMap_nil, List.append_nil,
      hunit _ (by omega) (by omega), hunit _ (by omega) (by omega), escape, hshort]
    dsimp only
    rw [if_neg (by omega), if_neg (by simp; omega), if_neg (by omega)]

theorem stringText_eq_of_units {s t : Str} (h : Utf16.units s = Utf16.units t)
    : stringText true s = stringText true t := by
  have hbody : ∀ s : Str, s.flatMap (escape true)
      = (Utf16.units s).flatMap fun u => escape true (.ofNat u) := by
    intro s
    rw [Utf16.units, List.flatMap_assoc]
    exact List.flatMap_congr fun c _ => escape_eq_units c
  rw [stringText, stringText, hbody, hbody, h]

/--
What a character is written in starts with no low surrogate, unless it is one itself.
-/
theorem not_low_of_piecesOf {c d : CodePoint} {ps qs : List Piece}
    (h : piecesOf true c ++ ps = .esc d :: qs) (hc : c.isLowSurrogate = false)
    : d.isLowSurrogate = false := by
  have hlt := c.isLt
  unfold piecesOf at h
  split at h
  . simp at h
  . split at h
    . simp only [List.cons_append, List.cons.injEq, Piece.esc.injEq] at h
      rwa [← h.1]
    . split at h
      . simp at h
      . split at h
        . simp only [List.cons_append, List.cons.injEq, Piece.esc.injEq] at h
          rwa [← h.1]
        . simp only [List.cons_append, List.cons.injEq, Piece.esc.injEq] at h
          rw [← h.1, CodePoint.isLowSurrogate, CodePoint.val_ofNat _ (by omega)]
          simp only [Bool.and_eq_false_iff, decide_eq_false_iff_not]
          omega

theorem kept_of_unpaired {lone : CodePoint → CodePoint} (hlone : ∀ c, lone c = c) {s : Str}
    (hs : unpaired s = true) : Kept lone true s := by
  rw [Kept]
  induction s with
  | nil => rfl
  | cons c s ih =>
    have hrest : unpaired s = true := by
      cases s with
      | nil => rfl
      | cons d s => exact (Bool.and_eq_true_iff.mp hs).2
    rw [List.flatMap_cons]
    by_cases hc : c.isSurrogate = true
    . have hpieces : piecesOf true c = [.esc c] := by
        have hval : 0xD800 ≤ c.val ∧ c.val ≤ 0xDFFF := by
          simpa [CodePoint.isSurrogate] using hc
        rw [piecesOf, shortEscape?_of_surrogate hc]
        simp only [Option.isSome_none, Bool.false_eq_true, ↓reduceIte, Bool.not_true, Bool.false_or,
          decide_eq_true_eq]
        rw [if_neg (by omega), if_neg (by omega), if_pos (by omega)]
      have hjoin : joinPieces lone (.esc c :: s.flatMap (piecesOf true))
          = c :: joinPieces lone (s.flatMap (piecesOf true)) := by
        rcases hps : s.flatMap (piecesOf true) with _ | ⟨d | d, ps⟩
        . simp [joinPieces, hlone]
        . simp [joinPieces, hlone]
        . have hpair : (c.isHighSurrogate && d.isLowSurrogate) = false := by
            cases s with
            | nil => simp at hps
            | cons e s =>
              rw [List.flatMap_cons] at hps
              have hnot := (Bool.and_eq_true_iff.mp hs).1
              rw [Bool.not_eq_true', Bool.and_eq_false_iff] at hnot
              rcases hnot with hhigh | hlow
              . rw [hhigh, Bool.false_and]
              . rw [not_low_of_piecesOf hps hlow, Bool.and_false]
          simp [joinPieces, hlone, hpair]
      rw [hpieces, List.singleton_append, hjoin, ih hrest]
    . rw [joinPieces_piecesOf lone true c _ fun _ => by simpa using hc, ih hrest]

/--
No surrogate pairs in a string or in the keys of an object.
-/
def UnpairedText : Json → Prop
  | .str s => unpaired s = true
  | .obj ms => ∀ m ∈ ms, unpaired m.1 = true
  | _ => True

theorem dumps_arr_congr {ascii : Bool} {xs ys : List Json}
    (h : xs.map (dumps ascii) = ys.map (dumps ascii))
    : dumps ascii (.arr xs) = dumps ascii (.arr ys) := by
  have htail : ∀ {xs ys : List Json}, xs.map (dumps ascii) = ys.map (dumps ascii) →
      dumpsTail ascii xs = dumpsTail ascii ys := by
    intro xs
    induction xs with
    | nil =>
      intro ys h
      rw [List.map_nil, eq_comm, List.map_eq_nil_iff] at h
      rw [h]
    | cons x xs ih =>
      intro ys h
      rcases ys with _ | ⟨y, ys⟩
      . cases h
      . rw [List.map_cons, List.map_cons, List.cons.injEq] at h
        rw [dumpsTail, dumpsTail, h.1, ih h.2]
  rcases xs with _ | ⟨x, xs⟩
  . rw [List.map_nil, eq_comm, List.map_eq_nil_iff] at h
    rw [h]
  . rcases ys with _ | ⟨y, ys⟩
    . cases h
    . rw [List.map_cons, List.map_cons, List.cons.injEq] at h
      rw [dumps, dumps, h.1, htail h.2]

/--
A text of ASCII characters determines the value it is printed from, but for surrogate pairs.
-/
theorem dumps_inj_of_unpaired {v w : Json} (hv : All (fun v => NotFloat v ∧ UnpairedText v) v)
    (hw : All (fun v => NotFloat v ∧ UnpairedText v) w) (h : dumps true v = dumps true w)
    : v = w := by
  have hback : ∀ (d : Nat) (v : Json), All (fun v => NotFloat v ∧ UnpairedText v) v →
      All (ReadsBack (plain d) true) v := by
    intro d v hv
    refine hv.imp ?_
    rintro v ⟨hfloat, htext⟩
    cases v with
    | null => trivial
    | bool b => trivial
    | int i => simp [ReadsBack, plain, intOfText_intText]
    | float x => exact hfloat
    | str s => exact kept_of_unpaired (fun _ => rfl) htext
    | arr xs => trivial
    | obj ms => exact ⟨rfl, fun m hm => kept_of_unpaired (fun _ => rfl) (htext m hm)⟩
  have hload : ∀ v : Json, All (fun v => NotFloat v ∧ UnpairedText v) v → ∀ d, v.depth ≤ d →
      loads (plain d) (dumps true v) = .ok v := by
    intro v hv d hd
    rw [← dumpsIn_compact true v 0]
    exact loads_dumpsIn_of_readsBack _ Layout.blank_compact true 0 v (hback d v hv) hd
  have hloadv := hload v hv (max v.depth w.depth) (Nat.le_max_left _ _)
  have hloadw := hload w hw (max v.depth w.depth) (Nat.le_max_right _ _)
  rw [h, hloadw] at hloadv
  exact (Except.ok.inj hloadv).symm

end Json
