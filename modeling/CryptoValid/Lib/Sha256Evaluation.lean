import CryptoValid.Lib.Sha256

/-!
This module contains SHA-256 once more, written for evaluation by the kernel: the working variables
are arguments that `force` evaluates, and the words of a message are computed with the primitive
operations on numbers. Its digests are the ones of `Sha256.digest`.
-/

namespace Sha256

/--
`k n` with `n` evaluated first, which the kernel does for the recursion.
-/
def force {α : Type} (n : Nat) (k : Nat → α) : α := Nat.rec (k 0) (fun m _ => k (Nat.succ m)) n

theorem force_eq {α : Type} (n : Nat) (k : Nat → α) : force n k = k n := by
  cases n with
  | zero => rfl
  | succ n => rfl

namespace Fast

/--
The rounds, `round` with one argument for each of the eight variables.
-/
def rounds : List Nat → List Nat → Nat → Nat → Nat → Nat → Nat → Nat → Nat → Nat → State
  | k :: ks, w :: ws, a, b, c, d, e, f, g, h =>
    force
      (Nat.add
        (Nat.add
          (Nat.add h
            (Nat.xor
              (Nat.xor (Nat.add (Nat.div e 64) (Nat.mul (Nat.mod e 64) 67108864))
                (Nat.add (Nat.div e 2048) (Nat.mul (Nat.mod e 2048) 2097152)))
              (Nat.add (Nat.div e 33554432) (Nat.mul (Nat.mod e 33554432) 128))))
          (Nat.xor (Nat.land e f) (Nat.land (Nat.xor e 4294967295) g)))
        (Nat.add k w))
      fun t1 =>
    force
      (Nat.mod
        (Nat.add
          (Nat.add t1
            (Nat.xor
              (Nat.xor (Nat.add (Nat.div a 4) (Nat.mul (Nat.mod a 4) 1073741824))
                (Nat.add (Nat.div a 8192) (Nat.mul (Nat.mod a 8192) 524288)))
              (Nat.add (Nat.div a 4194304) (Nat.mul (Nat.mod a 4194304) 1024))))
          (Nat.xor (Nat.xor (Nat.land a b) (Nat.land a c)) (Nat.land b c)))
        4294967296)
      fun a' =>
    force (Nat.mod (Nat.add d t1) 4294967296) fun e' => rounds ks ws a' a b c e' e f g
  | _, _, a, b, c, d, e, f, g, h => ⟨a, b, c, d, e, f, g, h⟩

theorem rounds_eq (ks ws : List Nat) (s : State)
    : rounds ks ws s.a s.b s.c s.d s.e s.f s.g s.h
        = (List.zipWith (· + ·) ks ws).foldl round s := by
  induction ks generalizing ws s with
  | nil => rfl
  | cons k ks ih =>
    cases ws with
    | nil => rfl
    | cons w ws =>
      rw [List.zipWith_cons_cons, List.foldl_cons, ← ih, rounds, force_eq, force_eq, force_eq]
      rfl

/--
`Sha256.extend` with one argument for each word of the window.
-/
def extend : Nat → Nat → Nat → Nat → Nat → Nat → Nat → Nat → Nat → Nat → Nat → Nat → Nat → Nat →
    Nat → Nat → Nat → List Nat
  | 0, _, _, _, _, _, _, _, _, _, _, _, _, _, _, _, _ => []
  | n + 1, w0, w1, w2, w3, w4, w5, w6, w7, w8, w9, w10, w11, w12, w13, w14, w15 =>
    force
      (Nat.mod
        (Nat.add
          (Nat.add
            (Nat.add w0
              (Nat.xor
                (Nat.xor (Nat.add (Nat.div w1 128) (Nat.mul (Nat.mod w1 128) 33554432))
                  (Nat.add (Nat.div w1 262144) (Nat.mul (Nat.mod w1 262144) 16384)))
                (Nat.div w1 8)))
            w9)
          (Nat.xor
            (Nat.xor (Nat.add (Nat.div w14 131072) (Nat.mul (Nat.mod w14 131072) 32768))
              (Nat.add (Nat.div w14 524288) (Nat.mul (Nat.mod w14 524288) 8192)))
            (Nat.div w14 1024)))
        4294967296)
      fun w => w :: extend n w1 w2 w3 w4 w5 w6 w7 w8 w9 w10 w11 w12 w13 w14 w15 w
termination_by structural n => n

theorem extend_eq (n w0 w1 w2 w3 w4 w5 w6 w7 w8 w9 w10 w11 w12 w13 w14 w15 : Nat)
    : extend n w0 w1 w2 w3 w4 w5 w6 w7 w8 w9 w10 w11 w12 w13 w14 w15
        = Sha256.extend n
          [w0, w1, w2, w3, w4, w5, w6, w7, w8, w9, w10, w11, w12, w13, w14, w15] := by
  induction n generalizing w0 w1 w2 w3 w4 w5 w6 w7 w8 w9 w10 w11 w12 w13 w14 w15 with
  | zero => rfl
  | succ n ih =>
    rw [extend, force_eq, ih]
    rfl

def add : State → State → State
  | ⟨a, b, c, d, e, f, g, h⟩, ⟨a', b', c', d', e', f', g', h'⟩ =>
    force (Nat.mod (Nat.add a a') 4294967296) fun a =>
    force (Nat.mod (Nat.add b b') 4294967296) fun b =>
    force (Nat.mod (Nat.add c c') 4294967296) fun c =>
    force (Nat.mod (Nat.add d d') 4294967296) fun d =>
    force (Nat.mod (Nat.add e e') 4294967296) fun e =>
    force (Nat.mod (Nat.add f f') 4294967296) fun f =>
    force (Nat.mod (Nat.add g g') 4294967296) fun g =>
    force (Nat.mod (Nat.add h h') 4294967296) fun h => ⟨a, b, c, d, e, f, g, h⟩

theorem add_eq (s t : State) : add s t = s.add t := by
  rcases s with ⟨a, b, c, d, e, f, g, h⟩
  rcases t with ⟨a', b', c', d', e', f', g', h'⟩
  simp only [add, force_eq]
  rfl

/--
The state after a block of sixteen words.
-/
def compress (s : State) (w0 w1 w2 w3 w4 w5 w6 w7 w8 w9 w10 w11 w12 w13 w14 w15 : Nat) : State :=
  add s
    (rounds roundConstants
      ([w0, w1, w2, w3, w4, w5, w6, w7, w8, w9, w10, w11, w12, w13, w14, w15]
        ++ extend 48 w0 w1 w2 w3 w4 w5 w6 w7 w8 w9 w10 w11 w12 w13 w14 w15)
      s.a s.b s.c s.d s.e s.f s.g s.h)

theorem compress_eq (s : State) (w0 w1 w2 w3 w4 w5 w6 w7 w8 w9 w10 w11 w12 w13 w14 w15 : Nat)
    : compress s w0 w1 w2 w3 w4 w5 w6 w7 w8 w9 w10 w11 w12 w13 w14 w15
        = Sha256.compress s
          [w0, w1, w2, w3, w4, w5, w6, w7, w8, w9, w10, w11, w12, w13, w14, w15] := by
  rw [compress, add_eq, rounds_eq, extend_eq, Sha256.compress]

/--
Sixteen words at a time are mixed into the state.
-/
def absorb (s : State) : List Nat → State
  | w0 :: w1 :: w2 :: w3 :: w4 :: w5 :: w6 :: w7 :: w8 :: w9 :: w10 :: w11 :: w12 :: w13 :: w14 ::
      w15 :: rest =>
    absorb (compress s w0 w1 w2 w3 w4 w5 w6 w7 w8 w9 w10 w11 w12 w13 w14 w15) rest
  | _ => s

theorem absorb_eq (n : Nat) (ws : List Nat) (h : ws.length = 16 * n) (s : State)
    : absorb s ws = (blocks n ws).foldl Sha256.compress s := by
  induction n generalizing ws s with
  | zero =>
    rw [List.length_eq_zero_iff.mp h]
    rfl
  | succ n ih =>
    match ws, h with
    | w0 :: w1 :: w2 :: w3 :: w4 :: w5 :: w6 :: w7 :: w8 :: w9 :: w10 :: w11 :: w12 :: w13 :: w14 ::
        w15 :: rest, h =>
      rw [absorb, ih rest (by simpa [Nat.mul_succ] using h), compress_eq, blocks, List.foldl_cons]
      rfl

def words : List Nat → List Nat
  | a :: b :: c :: d :: rest =>
    force
      (Nat.add (Nat.mul 256 (Nat.add (Nat.mul 256 (Nat.add (Nat.mul 256 a) b)) c)) d)
      fun w => w :: words rest
  | _ => []

theorem words_eq (msg : Bytes) : words (msg.map UInt8.toNat) = Sha256.words msg := by
  match msg with
  | a :: b :: c :: d :: rest =>
    rw [List.map_cons, List.map_cons, List.map_cons, List.map_cons, words, force_eq, words_eq rest,
      Sha256.words]
    simp [Nat.add_eq, Nat.mul_eq]
  | [] => rfl
  | [_] => rfl
  | [_, _] => rfl
  | [_, _, _] => rfl

theorem words_append (n : Nat) (ns rest : List Nat) (h : ns.length = 4 * n)
    : words (ns ++ rest) = words ns ++ words rest := by
  induction n generalizing ns with
  | zero =>
    rw [List.length_eq_zero_iff.mp h]
    rfl
  | succ n ih =>
    match ns, h with
    | a :: b :: c :: d :: ns, h =>
      simp only [List.cons_append, words, force_eq, ih ns (by simpa [Nat.mul_succ] using h)]

/--
The bytes of the message as numbers, and the length in bits as the last two words.
-/
def digest (msg : Bytes) : Bytes :=
  force msg.length fun len =>
  force (Nat.mul 8 len) fun bits =>
  (absorb initial
    (words (msg.map UInt8.toNat ++ 0x80 :: List.replicate ((119 - len % 64) % 64) 0)
      ++ [Nat.mod (Nat.div bits 4294967296) 4294967296, Nat.mod bits 4294967296])).toBytes

theorem words_length (bits : Nat)
    : words (((List.range 8).map fun i => UInt8.ofNat (bits / 256 ^ (7 - i))).map UInt8.toNat)
        = [bits / 4294967296 % 4294967296, bits % 4294967296] := by
  simp only [show List.range 8 = [0, 1, 2, 3, 4, 5, 6, 7] from rfl, List.map_cons, List.map_nil,
    UInt8.toNat_ofNat', words, force_eq, Nat.add_eq, Nat.mul_eq,
    List.cons.injEq, and_true]
  constructor
  . omega
  . omega

theorem length_words (n : Nat) (ns : List Nat) (h : ns.length = 4 * n) : (words ns).length = n := by
  induction n generalizing ns with
  | zero =>
    rw [List.length_eq_zero_iff.mp h]
    rfl
  | succ n ih =>
    match ns, h with
    | a :: b :: c :: d :: ns, h =>
      rw [words, force_eq, List.length_cons, ih ns (by simpa [Nat.mul_succ] using h)]

theorem digest_eq (msg : Bytes) : digest msg = Sha256.digest msg := by
  rw [digest, force_eq, force_eq, Sha256.digest]
  generalize hns : msg.map UInt8.toNat ++ 0x80 :: List.replicate ((119 - msg.length % 64) % 64) 0
    = ns
  have hlen : ns.length
      = 4 * (16 * ((msg.length + (119 - msg.length % 64) % 64 + 9) / 64) - 2) := by
    rw [← hns, List.length_append, List.length_map, List.length_cons, List.length_replicate]
    omega
  have hwords : Sha256.words (pad msg)
      = words ns ++ [8 * msg.length / 4294967296 % 4294967296, 8 * msg.length % 4294967296] := by
    rw [← words_length, ← words_append _ _ _ hlen, ← words_eq, pad, List.map_append,
      List.map_append, List.map_cons, List.map_replicate, ← hns]
    rfl
  have hblocks : (Sha256.words (pad msg)).length
      = 16 * ((msg.length + (119 - msg.length % 64) % 64 + 9) / 64) := by
    rw [hwords, List.length_append, length_words _ _ hlen]
    simp only [List.length_cons, List.length_nil]
    omega
  rw [hblocks, Nat.mul_div_cancel_left _ (by decide), ← absorb_eq _ _ hblocks, hwords]
  rfl

end Fast
end Sha256

/--
The same function, which the kernel evaluates faster.
-/
def fastSha256 : HashFn 32 where
  digest := Sha256.Fast.digest
  length_digest msg := by
    rw [Sha256.Fast.digest_eq]
    exact sha256.length_digest msg

theorem sha256_eq_fast : sha256 = fastSha256 := by
  have hdigest : Sha256.digest = Sha256.Fast.digest :=
    funext fun msg => (Sha256.Fast.digest_eq msg).symm
  unfold sha256 fastSha256
  simp only [hdigest]
