import CryptoValid.Lib.Text

/-!
This module contains standard base64 with padding, and its alphabet for URLs. The decoder takes full
quanta with padding in the last one only; bits that padding cuts off do not count.
-/

namespace Base64

def digit (n : Nat) : CodePoint :=
  if n < 26 then .ofNat (65 + n)
  else if n < 52 then .ofNat (71 + n)
  else if n < 62 then .ofNat (n - 4)
  else if n = 62 then .ofNat 43
  else .ofNat 47

def digit? (c : CodePoint) : Option Nat :=
  if 65 ≤ c.val ∧ c.val ≤ 90 then some (c.val - 65)
  else if 97 ≤ c.val ∧ c.val ≤ 122 then some (c.val - 71)
  else if 48 ≤ c.val ∧ c.val ≤ 57 then some (c.val + 4)
  else if c.val = 43 then some 62
  else if c.val = 47 then some 63
  else none

def encode : Bytes → Str
  | [] => []
  | [a] => [digit (a.toNat / 4), digit (a.toNat % 4 * 16), 0x3d, 0x3d]
  | [a, b] =>
    [digit (a.toNat / 4), digit (a.toNat % 4 * 16 + b.toNat / 16), digit (b.toNat % 16 * 4), 0x3d]
  | a :: b :: c :: rest =>
    digit (a.toNat / 4) :: digit (a.toNat % 4 * 16 + b.toNat / 16) ::
      digit (b.toNat % 16 * 4 + c.toNat / 64) :: digit (c.toNat % 64) :: encode rest

def decode? : Str → Option Bytes
  | [] => some []
  | a :: b :: c :: d :: rest => do
    let va ← digit? a
    let vb ← digit? b
    if c = 0x3d then
      if d = 0x3d ∧ rest = [] then return [.ofNat (va * 4 + vb / 16)] else none
    else
      let vc ← digit? c
      if d = 0x3d then
        if rest = [] then return [.ofNat (va * 4 + vb / 16), .ofNat (vb % 16 * 16 + vc / 4)] else none
      else
        let vd ← digit? d
        let tail ← decode? rest
        return .ofNat (va * 4 + vb / 16) :: .ofNat (vb % 16 * 16 + vc / 4) ::
          .ofNat (vc % 4 * 64 + vd) :: tail
  | _ => none

/--
`str.translate` of `base64.urlsafe_b64encode`.
-/
def urlsafe (c : CodePoint) : CodePoint :=
  if c = 0x2b then 0x2d else if c = 0x2f then 0x5f else c

/--
`str.translate` of `base64.urlsafe_b64decode`.
-/
def standard (c : CodePoint) : CodePoint :=
  if c = 0x2d then 0x2b else if c = 0x5f then 0x2f else c

/--
The padding that so many digits lack.
-/
def missing (digits : Nat) : Nat := (4 - digits % 4) % 4

/--
The padding that `base64.b64decode(s, validate=True)` takes depends on CPython: up to 3.10 it may be
too long, as long as there are two at most; from 3.11 to 3.12.3 there may be any number of them where
none is missing; later it is exact.
-/
inductive Padding where
  | upToTwo
  | anyIfFull
  | exact
  deriving DecidableEq

def Padding.takes (padding : Padding) (digits pads : Nat) : Bool :=
  pads = missing digits ||
    match padding with
    | .upToTwo => missing digits ≤ 1 && missing digits ≤ pads && pads ≤ 2
    | .anyIfFull => missing digits = 0 && 0 < digits
    | .exact => false

/--
`base64.b64decode(s, validate=True)`; `none` stands for an exception.
-/
def validated? (padding : Padding) (s : Str) : Option Bytes :=
  let body := s.takeWhile (· ≠ 0x3d)
  let pads := s.dropWhile (· ≠ 0x3d)
  if pads.all (· = 0x3d) && padding.takes body.length pads.length then
    decode? (body ++ List.replicate (missing body.length) 0x3d)
  else
    none

theorem digit?_digit (n : Nat) (h : n < 64) : digit? (digit n) = some n := by
  revert n
  decide

theorem digit_ne_pad (n : Nat) (h : n < 64) : digit n ≠ 0x3d := by
  revert n
  decide

theorem decode?_encode (bytes : Bytes) : decode? (encode bytes) = some bytes := by
  have hbyte : ∀ (b : UInt8) (n : Nat), n = b.toNat → UInt8.ofNat n = b := by
    rintro b n rfl
    exact UInt8.ofNat_toNat
  fun_induction encode bytes with
  | case1 => rfl
  | case2 a =>
    have ha := a.toNat_lt
    simp only [decode?, digit?_digit _ (show a.toNat / 4 < 64 by omega),
      digit?_digit _ (show a.toNat % 4 * 16 < 64 by omega), Option.bind_eq_bind, Option.bind_some,
      and_self, ↓reduceIte, hbyte a _ (show a.toNat / 4 * 4 + a.toNat % 4 * 16 / 16 = _ by omega)]
    rfl
  | case3 a b =>
    have ha := a.toNat_lt
    have hb := b.toNat_lt
    simp only [decode?, digit?_digit _ (show a.toNat / 4 < 64 by omega),
      digit?_digit _ (show a.toNat % 4 * 16 + b.toNat / 16 < 64 by omega),
      digit?_digit _ (show b.toNat % 16 * 4 < 64 by omega),
      digit_ne_pad _ (show b.toNat % 16 * 4 < 64 by omega), Option.bind_eq_bind, Option.bind_some,
      ↓reduceIte,
      hbyte a _ (show a.toNat / 4 * 4 + (a.toNat % 4 * 16 + b.toNat / 16) / 16 = _ by omega),
      hbyte b _ (show (a.toNat % 4 * 16 + b.toNat / 16) % 16 * 16 + b.toNat % 16 * 4 / 4 = _
        by omega)]
    rfl
  | case4 a b c rest ih =>
    have ha := a.toNat_lt
    have hb := b.toNat_lt
    have hc := c.toNat_lt
    simp only [decode?, digit?_digit _ (show a.toNat / 4 < 64 by omega),
      digit?_digit _ (show a.toNat % 4 * 16 + b.toNat / 16 < 64 by omega),
      digit?_digit _ (show b.toNat % 16 * 4 + c.toNat / 64 < 64 by omega),
      digit?_digit _ (show c.toNat % 64 < 64 by omega),
      digit_ne_pad _ (show b.toNat % 16 * 4 + c.toNat / 64 < 64 by omega),
      digit_ne_pad _ (show c.toNat % 64 < 64 by omega), Option.bind_eq_bind, Option.bind_some,
      ↓reduceIte, ih,
      hbyte a _ (show a.toNat / 4 * 4 + (a.toNat % 4 * 16 + b.toNat / 16) / 16 = _ by omega),
      hbyte b _ (show (a.toNat % 4 * 16 + b.toNat / 16) % 16 * 16 +
        (b.toNat % 16 * 4 + c.toNat / 64) / 4 = _ by omega),
      hbyte c _ (show (b.toNat % 16 * 4 + c.toNat / 64) % 4 * 64 + c.toNat % 64 = _ by omega)]
    rfl

theorem length_encode (bytes : Bytes) : (encode bytes).length = 4 * ((bytes.length + 2) / 3) := by
  fun_induction encode bytes with
  | case1 => rfl
  | case2 a => simp
  | case3 a b => simp
  | case4 a b c rest ih =>
    simp only [List.length_cons, ih]
    omega

/--
What decodes has only digits and padding.
-/
theorem forall_mem_of_decode? {s : Str} {raw : Bytes} (h : decode? s = some raw)
    : ∀ c ∈ s, (digit? c).isSome ∨ c = 0x3d := by
  fun_induction decode? s generalizing raw with
  | case1 => simp
  | case2 a b c d rest ih =>
    simp only [Option.bind_eq_bind, Option.bind_eq_some_iff] at h
    rcases h with ⟨va, ha, vb, hb, h⟩
    simp only [List.forall_mem_cons]
    refine ⟨Or.inl (by simp [ha]), Or.inl (by simp [hb]), ?_⟩
    split at h
    . next hc =>
      split at h
      . next hd => exact ⟨Or.inr hc, Or.inr hd.1, by simp [hd.2]⟩
      . simp at h
    . simp only [Option.bind_eq_some_iff] at h
      rcases h with ⟨vc, hc, h⟩
      refine ⟨Or.inl (by simp [hc]), ?_⟩
      split at h
      . next hd =>
        split at h
        . next hrest => exact ⟨Or.inr hd, by simp [hrest]⟩
        . simp at h
      . simp only [Option.bind_eq_some_iff] at h
        rcases h with ⟨vd, hd, tail, htail, _⟩
        exact ⟨Or.inl (by simp [hd]), ih htail⟩
  | case3 => simp at h

theorem forall_mem_of_validated? {padding : Padding} {s : Str} {raw : Bytes}
    (h : validated? padding s = some raw) : ∀ c ∈ s, (digit? c).isSome ∨ c = 0x3d := by
  unfold validated? at h
  dsimp only at h
  split at h
  . next htakes =>
    intro c hc
    rw [← List.takeWhile_append_dropWhile (p := (· ≠ 0x3d)) (l := s), List.mem_append] at hc
    rcases hc with hc | hc
    . exact forall_mem_of_decode? h c (List.mem_append_left _ hc)
    . rw [Bool.and_eq_true, List.all_eq_true] at htakes
      exact Or.inr (by simpa using htakes.1 c hc)
  . cases h

/--
A text is digits with the padding that they lack.
-/
theorem encode_eq_padded (bytes : Bytes)
    : ∃ body k, encode bytes = body ++ List.replicate k 0x3d ∧
        (∀ c ∈ body, ∃ n < 64, c = digit n) ∧ k ≤ 2 ∧ (body.length + k) % 4 = 0 := by
  fun_induction encode bytes with
  | case1 => exact ⟨[], 0, rfl, by simp, by decide, by decide⟩
  | case2 a =>
    have ha := a.toNat_lt
    refine ⟨[_, _], 2, rfl, ?_, by decide, by simp⟩
    simp only [List.forall_mem_cons, List.not_mem_nil, false_implies, implies_true, and_true]
    exact ⟨⟨_, by omega, rfl⟩, _, by omega, rfl⟩
  | case3 a b =>
    have ha := a.toNat_lt
    have hb := b.toNat_lt
    refine ⟨[_, _, _], 1, rfl, ?_, by decide, by simp⟩
    simp only [List.forall_mem_cons, List.not_mem_nil, false_implies, implies_true, and_true]
    exact ⟨⟨_, by omega, rfl⟩, ⟨_, by omega, rfl⟩, _, by omega, rfl⟩
  | case4 a b c rest ih =>
    have ha := a.toNat_lt
    have hb := b.toNat_lt
    have hc := c.toNat_lt
    rcases ih with ⟨body, k, heq, hbody, hk, hlength⟩
    refine ⟨_ :: _ :: _ :: _ :: body, k, by rw [heq]; rfl, ?_, hk, ?_⟩
    . simp only [List.forall_mem_cons]
      exact ⟨⟨_, by omega, rfl⟩, ⟨_, by omega, rfl⟩, ⟨_, by omega, rfl⟩, ⟨_, by omega, rfl⟩, hbody⟩
    . simp only [List.length_cons]
      omega

end Base64
