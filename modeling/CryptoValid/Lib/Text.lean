import CryptoValid.Lib.Bytes
import Mathlib.Data.Nat.Digits.Defs

/-!
This module contains text as sequences of code points, surrogates included, together with UTF-8 and
the hexadecimal text of bytes.
-/

abbrev CodePoint := Fin 0x110000

abbrev Str := List CodePoint

namespace CodePoint

instance instNeZero : NeZero 0x110000 := ⟨by decide⟩

def ofNat (n : Nat) : CodePoint := Fin.ofNat 0x110000 n

def ofChar (c : Char) : CodePoint := ofNat c.toNat

def isHighSurrogate (c : CodePoint) : Bool := 0xD800 ≤ c.val && c.val ≤ 0xDBFF

def isLowSurrogate (c : CodePoint) : Bool := 0xDC00 ≤ c.val && c.val ≤ 0xDFFF

def isSurrogate (c : CodePoint) : Bool := 0xD800 ≤ c.val && c.val ≤ 0xDFFF

theorem val_ofNat (n : Nat) (h : n < 0x110000) : (ofNat n).val = n := by
  simp [ofNat, Fin.ofNat, Nat.mod_eq_of_lt h]

@[simp]
theorem ofNat_val (c : CodePoint) : ofNat c.val = c := by
  apply Fin.ext
  rw [val_ofNat _ c.isLt]

end CodePoint

/--
The text of a string literal.
-/
def txt (s : String) : Str := s.toList.map CodePoint.ofChar

/--
Rewriting with this spares the kernel the decoding of a literal.
-/
theorem txt_ofList (cs : List Char)
    : txt (no_index (String.ofList cs)) = cs.map CodePoint.ofChar := by
  rw [txt, String.toList_ofList]

/--
No surrogates: every element is a Unicode scalar value.
-/
def Str.Scalar (s : Str) : Prop := ∀ c ∈ s, c.isSurrogate = false

namespace Str

instance instLawfulBEq : LawfulBEq Str := inferInstance

instance (s : Str) : Decidable s.Scalar :=
  decidable_of_iff (s.all fun c => !c.isSurrogate) (by simp [Scalar])

theorem scalar_nil : Scalar [] := by
  simp [Scalar]

@[simp]
theorem scalar_cons (c : CodePoint) (s : Str)
    : Scalar (c :: s) ↔ c.isSurrogate = false ∧ Scalar s := by
  simp [Scalar]

@[simp]
theorem scalar_append (s t : Str) : Scalar (s ++ t) ↔ Scalar s ∧ Scalar t := by
  simp [Scalar, or_imp, forall_and]

end Str

namespace Utf8

/--
The bytes of one code point. A surrogate gets the three bytes its number would have.
-/
def encodePoint (c : CodePoint) : Bytes :=
  if c.val < 0x80 then
    [UInt8.ofNat c.val]
  else if c.val < 0x800 then
    [UInt8.ofNat (0xC0 + c.val / 64), UInt8.ofNat (0x80 + c.val % 64)]
  else if c.val < 0x10000 then
    [UInt8.ofNat (0xE0 + c.val / 4096), UInt8.ofNat (0x80 + c.val / 64 % 64),
      UInt8.ofNat (0x80 + c.val % 64)]
  else
    [UInt8.ofNat (0xF0 + c.val / 262144), UInt8.ofNat (0x80 + c.val / 4096 % 64),
      UInt8.ofNat (0x80 + c.val / 64 % 64), UInt8.ofNat (0x80 + c.val % 64)]

/--
Strict encoding, surrogates have none.
-/
def encode? (s : Str) : Option Bytes :=
  if Str.Scalar s then some (s.flatMap encodePoint) else none

def continuation (b : UInt8) : Bool := 0x80 ≤ b.toNat && b.toNat < 0xC0

/--
The code point whose first byte is `b`, and how many of the bytes after it belong to it. With
`surrogates` the three bytes of a surrogate are taken too.
-/
def head? (surrogates : Bool) (b : UInt8) (bs : Bytes) : Option (CodePoint × Nat) :=
  if b.toNat < 0x80 then
    some (.ofNat b.toNat, 0)
  else if b.toNat < 0xC2 then
    none
  else if b.toNat < 0xE0 then
    match bs with
    | b1 :: _ =>
      if continuation b1 then
        some (.ofNat ((b.toNat - 0xC0) * 64 + (b1.toNat - 0x80)), 1)
      else
        none
    | _ => none
  else if b.toNat < 0xF0 then
    match bs with
    | b1 :: b2 :: _ =>
      let n := (b.toNat - 0xE0) * 4096 + (b1.toNat - 0x80) * 64 + (b2.toNat - 0x80)
      if continuation b1 && continuation b2 && 0x800 ≤ n &&
          (surrogates || n < 0xD800 || 0xDFFF < n) then
        some (.ofNat n, 2)
      else
        none
    | _ => none
  else if b.toNat < 0xF5 then
    match bs with
    | b1 :: b2 :: b3 :: _ =>
      let n := (b.toNat - 0xF0) * 262144 + (b1.toNat - 0x80) * 4096 + (b2.toNat - 0x80) * 64 +
        (b3.toNat - 0x80)
      if continuation b1 && continuation b2 && continuation b3 && 0x10000 ≤ n && n < 0x110000 then
        some (.ofNat n, 3)
      else
        none
    | _ => none
  else
    none

/--
Decode byte by byte; `onError` says what to do with a byte that no code point starts with.
-/
def decodeWith (surrogates : Bool) (onError : UInt8 → Option CodePoint) (bytes : Bytes)
    : Option Str :=
  match bytes with
  | [] => some []
  | b :: bs =>
    match head? surrogates b bs with
    | some (c, k) => (decodeWith surrogates onError (bs.drop k)).map (c :: ·)
    | none =>
      match onError b with
      | some c => (decodeWith surrogates onError bs).map (c :: ·)
      | none => none
termination_by bytes.length
decreasing_by
  . simp only [List.length_drop, List.length_cons]
    omega
  . simp only [List.length_cons]
    omega

def decode? (bytes : Bytes) : Option Str := decodeWith false (fun _ => none) bytes

/--
`errors="surrogatepass"`.
-/
def decodeSurrogatePass? (bytes : Bytes) : Option Str := decodeWith true (fun _ => none) bytes

/--
`errors="surrogateescape"`: a byte that cannot be decoded becomes a low surrogate.
-/
def decodeSurrogateEscape (bytes : Bytes) : Str :=
  (decodeWith false (fun b => some (.ofNat (0xDC00 + b.toNat))) bytes).getD []

theorem toNat_ofNat (n : Nat) (h : n < 256) : (UInt8.ofNat n).toNat = n := by
  simp [UInt8.toNat_ofNat', Nat.mod_eq_of_lt h]

theorem isSurrogate_of_head? {b : UInt8} {bs : Bytes} {c : CodePoint} {k : Nat}
    (h : head? false b bs = some (c, k)) : c.isSurrogate = false := by
  have hlt := b.toNat_lt
  have hval : ∀ n, n < 0x110000 → n < 0xD800 ∨ 0xDFFF < n →
      (CodePoint.ofNat n).isSurrogate = false := by
    intro n hn hrange
    rw [CodePoint.isSurrogate, CodePoint.val_ofNat n hn, Bool.and_eq_false_iff,
      decide_eq_false_iff_not, decide_eq_false_iff_not]
    omega
  unfold head? at h
  split at h
  . simp only [Option.some.injEq, Prod.mk.injEq] at h
    rw [← h.1]
    exact hval _ (by omega) (by omega)
  . split at h
    . simp at h
    . split at h
      . split at h
        . next b1 _ =>
          have hlt1 := b1.toNat_lt
          split at h
          . simp only [Option.some.injEq, Prod.mk.injEq] at h
            rw [← h.1]
            exact hval _ (by omega) (by omega)
          . simp at h
        . simp at h
      . split at h
        . split at h
          . simp only [Bool.false_or] at h
            split at h
            . next hcond =>
              simp only [Bool.and_eq_true, Bool.or_eq_true, decide_eq_true_eq, continuation]
                at hcond
              simp only [Option.some.injEq, Prod.mk.injEq] at h
              rw [← h.1]
              exact hval _ (by omega) hcond.2
            . simp at h
          . simp at h
        . split at h
          . split at h
            . dsimp only at h
              split at h
              . next hcond =>
                simp only [Bool.and_eq_true, decide_eq_true_eq] at hcond
                simp only [Option.some.injEq, Prod.mk.injEq] at h
                rw [← h.1]
                exact hval _ hcond.2 (by omega)
              . simp at h
            . simp at h
          . simp at h

/--
What is decoded strictly has no surrogates.
-/
theorem scalar_of_decode? {bytes : Bytes} {s : Str}
    (h : decode? bytes = some s) : Str.Scalar s := by
  induction hn : bytes.length using Nat.strongRecOn generalizing bytes s with
  | _ n ih =>
    rw [decode?] at h
    cases bytes with
    | nil =>
      rw [decodeWith, Option.some.injEq] at h
      rw [← h]
      exact Str.scalar_nil
    | cons x bytes =>
      rw [List.length_cons] at hn
      rw [decodeWith] at h
      split at h
      . next c k hhead =>
        rcases Option.map_eq_some_iff.mp h with ⟨t, ht, rfl⟩
        refine (Str.scalar_cons _ _).mpr ⟨isSurrogate_of_head? hhead, ?_⟩
        exact ih _ (by rw [← hn, List.length_drop]; omega) ht rfl
      . simp at h

/--
What is decoded from the bytes of a code point is the code point.
-/
theorem head?_encodePoint (surrogates : Bool) (c : CodePoint)
    (hc : surrogates = true ∨ c.isSurrogate = false)
    : ∃ b bs, encodePoint c = b :: bs ∧ ∀ rest, head? surrogates b (bs ++ rest)
        = some (c, bs.length) := by
  have hlt := c.isLt
  have hc' : surrogates = true ∨ c.val < 0xD800 ∨ 0xDFFF < c.val := by
    rcases hc with hs | hc
    . exact Or.inl hs
    . simp only [CodePoint.isSurrogate, Bool.and_eq_false_iff, decide_eq_false_iff_not] at hc
      omega
  unfold encodePoint
  split
  . next h =>
    refine ⟨_, _, rfl, ?_⟩
    intro rest
    simp [head?, toNat_ofNat c.val (by omega), h]
  . split
    . next h1 h2 =>
      refine ⟨_, _, rfl, ?_⟩
      intro rest
      simp only [head?, continuation, List.cons_append, List.nil_append,
        toNat_ofNat (0xC0 + c.val / 64) (by omega), toNat_ofNat (0x80 + c.val % 64) (by omega)]
      have hn : (0xC0 + c.val / 64 - 0xC0) * 64 + (0x80 + c.val % 64 - 0x80) = c.val := by omega
      rw [hn, if_neg (by omega), if_neg (by omega), if_pos (by omega), if_pos (by simp; omega)]
      simp
    . split
      . next h1 h2 h3 =>
        refine ⟨_, _, rfl, ?_⟩
        intro rest
        simp only [head?, continuation, List.cons_append, List.nil_append,
          toNat_ofNat (0xE0 + c.val / 4096) (by omega),
          toNat_ofNat (0x80 + c.val / 64 % 64) (by omega),
          toNat_ofNat (0x80 + c.val % 64) (by omega)]
        have hn : (0xE0 + c.val / 4096 - 0xE0) * 4096 + (0x80 + c.val / 64 % 64 - 0x80) * 64 +
            (0x80 + c.val % 64 - 0x80) = c.val := by omega
        have hrange : (surrogates = true ∨ c.val < 0xD800) ∨ 0xDFFF < c.val := by
          rw [or_assoc]
          exact hc'
        rw [hn, if_neg (by omega), if_neg (by omega), if_neg (by omega), if_pos (by omega), if_pos]
        . simp
        . simp only [Bool.and_eq_true, Bool.or_eq_true, decide_eq_true_eq]
          exact ⟨by omega, hrange⟩
      . next h1 h2 h3 =>
        refine ⟨_, _, rfl, ?_⟩
        intro rest
        simp only [head?, continuation, List.cons_append, List.nil_append,
          toNat_ofNat (0xF0 + c.val / 262144) (by omega),
          toNat_ofNat (0x80 + c.val / 4096 % 64) (by omega),
          toNat_ofNat (0x80 + c.val / 64 % 64) (by omega),
          toNat_ofNat (0x80 + c.val % 64) (by omega)]
        have hn : (0xF0 + c.val / 262144 - 0xF0) * 262144 +
            (0x80 + c.val / 4096 % 64 - 0x80) * 4096 + (0x80 + c.val / 64 % 64 - 0x80) * 64 +
            (0x80 + c.val % 64 - 0x80) = c.val := by omega
        rw [hn, if_neg (by omega), if_neg (by omega), if_neg (by omega), if_neg (by omega),
          if_pos (by omega), if_pos (by simp; omega)]
        simp

theorem decodeWith_encodePoint (surrogates : Bool) (onError : UInt8 → Option CodePoint)
    (c : CodePoint) (rest : Bytes) (hc : surrogates = true ∨ c.isSurrogate = false)
    : decodeWith surrogates onError (encodePoint c ++ rest)
        =
      (decodeWith surrogates onError rest).map (c :: ·) := by
  rcases head?_encodePoint surrogates c hc with ⟨b, bs, hbs, hhead⟩
  rw [hbs, List.cons_append, decodeWith, hhead]
  simp

theorem decodeWith_flatMap_encodePoint (surrogates : Bool) (onError : UInt8 → Option CodePoint)
    (s : Str) (hs : surrogates = true ∨ Str.Scalar s)
    : decodeWith surrogates onError (s.flatMap encodePoint) = some s := by
  induction s with
  | nil => rw [List.flatMap_nil, decodeWith]
  | cons c s ih =>
    have hc : surrogates = true ∨ c.isSurrogate = false := by
      rcases hs with hs | hs
      . exact Or.inl hs
      . exact Or.inr (Str.scalar_cons c s |>.mp hs).1
    have hs' : surrogates = true ∨ Str.Scalar s := by
      rcases hs with hs | hs
      . exact Or.inl hs
      . exact Or.inr (Str.scalar_cons c s |>.mp hs).2
    rw [List.flatMap_cons, decodeWith_encodePoint _ _ _ _ hc, ih hs']
    rfl

/--
Also surrogates can be told from their bytes.
-/
theorem flatMap_encodePoint_inj {s t : Str} (h : s.flatMap encodePoint = t.flatMap encodePoint)
    : s = t := by
  have hdec := decodeWith_flatMap_encodePoint true (fun _ => none) s (Or.inl rfl)
  rw [h, decodeWith_flatMap_encodePoint true (fun _ => none) t (Or.inl rfl)] at hdec
  exact (Option.some.inj hdec).symm

theorem encode?_eq_some {s : Str} (h : encode? s = some b) : b = s.flatMap encodePoint := by
  unfold encode? at h
  split at h
  . exact (Option.some.inj h).symm
  . simp at h

theorem encode?_inj {s t : Str} (h : encode? s = some b) (h' : encode? t = some b) : s = t :=
  flatMap_encodePoint_inj ((encode?_eq_some h).symm.trans (encode?_eq_some h'))

/-!
### Texts in two parts
-/

/--
A text may be cut in front of every byte that is no continuation byte.
-/
def Boundary (bytes : Bytes) : Prop := ∀ b ∈ bytes.head?, continuation b = false

/--
Every text starts at a boundary.
-/
theorem boundary_flatMap_encodePoint (s : Str) : Boundary (s.flatMap encodePoint) := by
  intro b hb
  cases s with
  | nil => simp at hb
  | cons c s =>
    have hlt := c.isLt
    rw [List.flatMap_cons] at hb
    unfold encodePoint at hb
    split at hb
    . next h =>
      rw [List.cons_append, List.head?_cons, Option.mem_some_iff] at hb
      simp [← hb, continuation, toNat_ofNat c.val (by omega)]
      omega
    . split at hb
      . next h1 h2 =>
        rw [List.cons_append, List.head?_cons, Option.mem_some_iff] at hb
        simp [← hb, continuation]
        omega
      . split at hb
        . next h1 h2 h3 =>
          rw [List.cons_append, List.head?_cons, Option.mem_some_iff] at hb
          simp [← hb, continuation]
          omega
        . next h1 h2 h3 =>
          rw [List.cons_append, List.head?_cons, Option.mem_some_iff] at hb
          simp [← hb, continuation]
          omega

theorem head?_append (surrogates : Bool) (b : UInt8) (bs rest : Bytes) (h : Boundary rest)
    : head? surrogates b (bs ++ rest) = head? surrogates b bs := by
  cases rest with
  | nil => rw [List.append_nil]
  | cons r rest =>
    have hr : continuation r = false := h r (by simp)
    -- at most three bytes are looked at, and `r` is none that counts
    rcases bs with _ | ⟨b1, _ | ⟨b2, _ | ⟨b3, bs⟩⟩⟩
    . rcases rest with _ | ⟨r1, _ | ⟨r2, rest⟩⟩ <;> simp [head?, hr]
    . rcases rest with _ | ⟨r1, rest⟩ <;> simp [head?, hr]
    . simp [head?, hr]
    . rfl

theorem head?_le (surrogates : Bool) (b : UInt8) (bs : Bytes) {c : CodePoint} {k : Nat}
    (h : head? surrogates b bs = some (c, k)) : k ≤ bs.length := by
  rcases bs with _ | ⟨b1, _ | ⟨b2, _ | ⟨b3, bs⟩⟩⟩ <;>
  . simp only [head?] at h
    repeat' split at h
    all_goals simp_all <;> omega

theorem decodeWith_append (surrogates : Bool) (onError : UInt8 → Option CodePoint) (a b : Bytes)
    (h : Boundary b)
    : decodeWith surrogates onError (a ++ b)
        =
      (decodeWith surrogates onError a).bind fun s =>
        (decodeWith surrogates onError b).map (s ++ ·) := by
  induction hn : a.length using Nat.strongRecOn generalizing a with
  | _ n ih =>
    cases a with
    | nil =>
      rw [List.nil_append, decodeWith.eq_def surrogates onError []]
      cases decodeWith surrogates onError b <;> simp
    | cons x a =>
      rw [List.length_cons] at hn
      rw [List.cons_append, decodeWith, decodeWith.eq_def surrogates onError (x :: a),
        head?_append surrogates x a b h]
      dsimp only
      split
      . next c k hhead =>
        have hk := head?_le surrogates x a hhead
        rw [List.drop_append_of_le_length hk, ih (a.drop k).length
          (by rw [List.length_drop]; omega) (a.drop k) rfl]
        cases decodeWith surrogates onError (a.drop k) <;>
          cases decodeWith surrogates onError b <;> simp
      . split
        . rw [ih a.length (by omega) a rfl]
          cases decodeWith surrogates onError a <;>
            cases decodeWith surrogates onError b <;> simp
        . rfl

/--
The code points that stand for bytes that cannot be decoded.
-/
def escaped (b : UInt8) : Option CodePoint := some (.ofNat (0xDC00 + b.toNat))

theorem decodeWith_escaped (bytes : Bytes)
    : decodeWith false escaped bytes = some (decodeSurrogateEscape bytes) := by
  have htotal : ∃ s, decodeWith false escaped bytes = some s := by
    induction hn : bytes.length using Nat.strongRecOn generalizing bytes with
    | _ n ih =>
      cases bytes with
      | nil => exact ⟨[], by rw [decodeWith]⟩
      | cons x bytes =>
        rw [List.length_cons] at hn
        rw [decodeWith]
        split
        . next c k _ =>
          rcases ih (bytes.drop k).length (by rw [List.length_drop]; omega) _ rfl with ⟨s, hs⟩
          exact ⟨c :: s, by rw [hs]; rfl⟩
        . rcases ih bytes.length (by omega) _ rfl with ⟨s, hs⟩
          exact ⟨_ :: s, by rw [hs]; rfl⟩
  rcases htotal with ⟨s, hs⟩
  have hescape : decodeSurrogateEscape bytes = s := by
    have hget : (decodeWith false escaped bytes).getD [] = s := by rw [hs]; rfl
    exact hget
  rw [hs, hescape]

theorem decodeSurrogateEscape_append (a b : Bytes) (h : Boundary b)
    : decodeSurrogateEscape (a ++ b) = decodeSurrogateEscape a ++ decodeSurrogateEscape b := by
  have happend := decodeWith_append false escaped a b h
  rw [decodeWith_escaped, decodeWith_escaped, decodeWith_escaped] at happend
  exact Option.some.inj happend

/--
Where no surrogate comes out, no byte was escaped.
-/
theorem decode?_of_scalar {bytes : Bytes} (h : Str.Scalar (decodeSurrogateEscape bytes))
    : decode? bytes = some (decodeSurrogateEscape bytes) := by
  have hdecode : ∀ s, decodeWith false escaped bytes = some s → Str.Scalar s →
      decode? bytes = some s := by
    clear h
    induction hn : bytes.length using Nat.strongRecOn generalizing bytes with
    | _ n ih =>
      intro s hs hscalar
      rw [decode?]
      cases bytes with
      | nil =>
        rw [decodeWith] at hs ⊢
        exact hs
      | cons x bytes =>
        rw [List.length_cons] at hn
        rw [decodeWith] at hs ⊢
        cases hhead : head? false x bytes with
        | some ck =>
          rw [hhead] at hs
          dsimp only at hs ⊢
          rcases Option.map_eq_some_iff.mp hs with ⟨t, ht, rfl⟩
          have hrest := ih _ (by rw [← hn, List.length_drop]; omega) rfl t ht
            ((Str.scalar_cons _ _).mp hscalar).2
          rw [decode?] at hrest
          rw [hrest]
          rfl
        | none =>
          rw [hhead] at hs
          simp only [escaped] at hs
          rcases Option.map_eq_some_iff.mp hs with ⟨t, _, rfl⟩
          have hsurrogate := ((Str.scalar_cons _ _).mp hscalar).1
          have hlt := x.toNat_lt
          rw [CodePoint.isSurrogate, CodePoint.val_ofNat _ (by omega)] at hsurrogate
          simp only [Bool.and_eq_false_iff, decide_eq_false_iff_not] at hsurrogate
          omega
  exact hdecode _ (decodeWith_escaped bytes) h

theorem decodeSurrogateEscape_flatMap_encodePoint (s : Str) (hs : Str.Scalar s)
    : decodeSurrogateEscape (s.flatMap encodePoint) = s := by
  rw [decodeSurrogateEscape, decodeWith_flatMap_encodePoint _ _ s (Or.inr hs)]
  rfl

/-!
### Bytes that are a text
-/

theorem ofNat_toNat_eq (b : UInt8) (n : Nat) (h : n = b.toNat) : UInt8.ofNat n = b := by
  rw [h, UInt8.ofNat_toNat]

/--
The bytes that a code point is decoded from are the ones that it is encoded to.
-/
theorem encodePoint_of_head? {b : UInt8} {bs : Bytes} {c : CodePoint} {k : Nat}
    (h : head? false b bs = some (c, k)) : encodePoint c = b :: bs.take k := by
  have hlt := b.toNat_lt
  unfold head? at h
  split at h
  . next h80 =>
    rcases Prod.mk.inj (Option.some.inj h) with ⟨rfl, rfl⟩
    rw [encodePoint, CodePoint.val_ofNat _ (by omega), if_pos h80]
    simp
  . next h80 =>
    split at h
    . simp at h
    . next hC2 =>
      split at h
      . next hE0 =>
        split at h
        . next b1 bs =>
          split at h
          . next hcont =>
            simp only [continuation, Bool.and_eq_true, decide_eq_true_eq] at hcont
            rcases Prod.mk.inj (Option.some.inj h) with ⟨rfl, rfl⟩
            rw [encodePoint, CodePoint.val_ofNat _ (by omega), if_neg (by omega),
              if_pos (by omega), ofNat_toNat_eq b _ (by omega), ofNat_toNat_eq b1 _ (by omega)]
            simp
          . simp at h
        . simp at h
      . next hE0 =>
        split at h
        . next hF0 =>
          split at h
          . next b1 b2 bs =>
            dsimp only at h
            split at h
            . next hcond =>
              simp only [continuation, Bool.and_eq_true, decide_eq_true_eq] at hcond
              rcases hcond with ⟨⟨⟨h1, h2⟩, hlow⟩, -⟩
              rcases Prod.mk.inj (Option.some.inj h) with ⟨rfl, rfl⟩
              rw [encodePoint, CodePoint.val_ofNat _ (by omega), if_neg (by omega),
                if_neg (by omega), if_pos (by omega), ofNat_toNat_eq b _ (by omega),
                ofNat_toNat_eq b1 _ (by omega), ofNat_toNat_eq b2 _ (by omega)]
              simp
            . simp at h
          . simp at h
        . next hF0 =>
          split at h
          . split at h
            . next b1 b2 b3 bs =>
              dsimp only at h
              split at h
              . next hcond =>
                simp only [continuation, Bool.and_eq_true, decide_eq_true_eq] at hcond
                rcases hcond with ⟨⟨⟨⟨h1, h2⟩, h3⟩, hlow⟩, hhigh⟩
                rcases Prod.mk.inj (Option.some.inj h) with ⟨rfl, rfl⟩
                rw [encodePoint, CodePoint.val_ofNat _ (by omega), if_neg (by omega),
                  if_neg (by omega), if_neg (by omega), ofNat_toNat_eq b _ (by omega),
                  ofNat_toNat_eq b1 _ (by omega), ofNat_toNat_eq b2 _ (by omega),
                  ofNat_toNat_eq b3 _ (by omega)]
                simp
              . simp at h
            . simp at h
          . simp at h

theorem eq_flatMap_of_decode? {bytes : Bytes} {s : Str} (h : decode? bytes = some s)
    : bytes = s.flatMap encodePoint := by
  induction hn : bytes.length using Nat.strongRecOn generalizing bytes s with
  | _ n ih =>
    rw [decode?] at h
    cases bytes with
    | nil =>
      rw [decodeWith, Option.some.injEq] at h
      rw [← h]
      rfl
    | cons x bytes =>
      rw [List.length_cons] at hn
      rw [decodeWith] at h
      split at h
      . next c k hhead =>
        rcases Option.map_eq_some_iff.mp h with ⟨t, ht, rfl⟩
        have hrest := ih _ (by rw [← hn, List.length_drop]; omega) ht rfl
        rw [List.flatMap_cons, encodePoint_of_head? hhead, ← hrest, List.cons_append,
          List.take_append_drop]
      . simp at h

/--
Only a line feed has the byte of a line feed.
-/
theorem nl_not_mem_encodePoint {c : CodePoint} (h : c ≠ 0x0a) : (0x0a : UInt8) ∉ encodePoint c := by
  have hlt := c.isLt
  have hne : ∀ n < 256, n ≠ 0x0a → (0x0a : UInt8) ≠ UInt8.ofNat n := by
    intro n hn hne heq
    have := congrArg UInt8.toNat heq
    rw [toNat_ofNat n hn] at this
    exact hne this.symm
  have hval : c.val ≠ 0x0a := fun heq => h (Fin.ext heq)
  unfold encodePoint
  split
  . simpa using hne _ (by omega) hval
  . split
    . simp only [List.mem_cons, List.not_mem_nil, or_false, not_or]
      exact ⟨hne _ (by omega) (by omega), hne _ (by omega) (by omega)⟩
    . split
      . simp only [List.mem_cons, List.not_mem_nil, or_false, not_or]
        exact ⟨hne _ (by omega) (by omega), hne _ (by omega) (by omega),
          hne _ (by omega) (by omega)⟩
      . simp only [List.mem_cons, List.not_mem_nil, or_false, not_or]
        exact ⟨hne _ (by omega) (by omega), hne _ (by omega) (by omega),
          hne _ (by omega) (by omega), hne _ (by omega) (by omega)⟩

end Utf8

namespace Hex

def digit (n : Nat) : CodePoint := if n < 10 then .ofNat (48 + n) else .ofNat (87 + n)

/--
`bytes.hex()`, two lower case digits a byte.
-/
def ofBytes (bytes : Bytes) : Str :=
  bytes.flatMap fun b => [digit (b.toNat / 16), digit (b.toNat % 16)]

def digit? (c : CodePoint) : Option Nat :=
  if 48 ≤ c.val ∧ c.val ≤ 57 then some (c.val - 48)
  else if 97 ≤ c.val ∧ c.val ≤ 102 then some (c.val - 87)
  else if 65 ≤ c.val ∧ c.val ≤ 70 then some (c.val - 55)
  else none

theorem digit?_digit (n : Nat) (h : n < 16) : digit? (digit n) = some n := by
  revert n
  decide

theorem lt_of_digit? {c : CodePoint} {d : Nat} (h : digit? c = some d) : d < 16 := by
  unfold digit? at h
  repeat' split at h
  all_goals
    simp only [Option.some.injEq, reduceCtorEq] at h
  all_goals omega

theorem length_ofBytes (bytes : Bytes) : (ofBytes bytes).length = 2 * bytes.length := by
  simp [ofBytes, List.length_flatMap]
  omega

theorem exists_digit_of_mem_ofBytes {bytes : Bytes} {c : CodePoint} (h : c ∈ ofBytes bytes)
    : ∃ n < 16, c = digit n := by
  rcases List.mem_flatMap.mp h with ⟨b, _, hb⟩
  have hlt := b.toNat_lt
  simp only [List.mem_cons, List.not_mem_nil, or_false] at hb
  rcases hb with rfl | rfl
  . exact ⟨_, by omega, rfl⟩
  . exact ⟨_, by omega, rfl⟩

theorem scalar_ofBytes (bytes : Bytes) : Str.Scalar (ofBytes bytes) := by
  have hdigit : ∀ n < 16, (digit n).isSurrogate = false := by decide
  intro c hc
  rcases exists_digit_of_mem_ofBytes hc with ⟨n, hn, rfl⟩
  exact hdigit n hn

theorem ofBytes_inj {a b : Bytes} (h : ofBytes a = ofBytes b) : a = b := by
  induction a generalizing b with
  | nil =>
    cases b with
    | nil => rfl
    | cons => simp [ofBytes] at h
  | cons x a ih =>
    cases b with
    | nil => simp [ofBytes] at h
    | cons y b =>
      simp only [ofBytes, List.flatMap_cons, List.cons_append, List.nil_append,
        List.cons.injEq] at h
      rcases h with ⟨hhi, hlo, hrest⟩
      have hx := x.toNat_lt
      have hy := y.toNat_lt
      have hhi' := congrArg digit? hhi
      have hlo' := congrArg digit? hlo
      rw [digit?_digit _ (by omega), digit?_digit _ (by omega)] at hhi' hlo'
      simp only [Option.some.injEq] at hhi' hlo'
      rw [ih hrest, UInt8.toNat_inj.mp (show x.toNat = y.toNat by omega)]

end Hex
