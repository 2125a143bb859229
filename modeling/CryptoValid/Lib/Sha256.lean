import CryptoValid.Lib.Bytes
import Mathlib.Data.Nat.Prime.Basic

/-!
This module contains SHA-256, to run the functions that take a hash function. A word is a number
below `2 ^ 32`.
-/

namespace Sha256

structure State where
  (a b c d e f g h : Nat)

def initial : State :=
  ⟨0x6a09e667, 0xbb67ae85, 0x3c6ef372, 0xa54ff53a, 0x510e527f, 0x9b05688c, 0x1f83d9ab, 0x5be0cd19⟩

def roundConstants : List Nat :=
  [0x428a2f98, 0x71374491, 0xb5c0fbcf, 0xe9b5dba5, 0x3956c25b, 0x59f111f1, 0x923f82a4, 0xab1c5ed5,
   0xd807aa98, 0x12835b01, 0x243185be, 0x550c7dc3, 0x72be5d74, 0x80deb1fe, 0x9bdc06a7, 0xc19bf174,
   0xe49b69c1, 0xefbe4786, 0x0fc19dc6, 0x240ca1cc, 0x2de92c6f, 0x4a7484aa, 0x5cb0a9dc, 0x76f988da,
   0x983e5152, 0xa831c66d, 0xb00327c8, 0xbf597fc7, 0xc6e00bf3, 0xd5a79147, 0x06ca6351, 0x14292967,
   0x27b70a85, 0x2e1b2138, 0x4d2c6dfc, 0x53380d13, 0x650a7354, 0x766a0abb, 0x81c2c92e, 0x92722c85,
   0xa2bfe8a1, 0xa81a664b, 0xc24b8b70, 0xc76c51a3, 0xd192e819, 0xd6990624, 0xf40e3585, 0x106aa070,
   0x19a4c116, 0x1e376c08, 0x2748774c, 0x34b0bcb5, 0x391c0cb3, 0x4ed8aa4a, 0x5b9cca4f, 0x682e6ff3,
   0x748f82ee, 0x78a5636f, 0x84c87814, 0x8cc70208, 0x90befffa, 0xa4506ceb, 0xbef9a3f7, 0xc67178f2]

def rotr (x n : Nat) : Nat := x / 2 ^ n + x % 2 ^ n * 2 ^ (32 - n)

/--
The message, a one bit, zeros, and the length in bits as 64 bit number.
-/
def pad (msg : Bytes) : Bytes :=
  let zeros := (119 - msg.length % 64) % 64
  let bits := 8 * msg.length
  msg ++ 0x80 :: List.replicate zeros 0 ++
    (List.range 8).map fun i => UInt8.ofNat (bits / 256 ^ (7 - i))

def words : Bytes → List Nat
  | a :: b :: c :: d :: rest =>
    [a, b, c, d].foldl (fun n byte => 256 * n + byte.toNat) 0 :: words rest
  | _ => []

/--
The `n` words that follow the last sixteen ones, which `window` holds.
-/
def extend : Nat → List Nat → List Nat
  | 0, _ => []
  | n + 1, window =>
    let w15 := window.getD 1 0
    let w2 := window.getD 14 0
    let s0 := rotr w15 7 ^^^ rotr w15 18 ^^^ (w15 / 2 ^ 3)
    let s1 := rotr w2 17 ^^^ rotr w2 19 ^^^ (w2 / 2 ^ 10)
    let w := (window.getD 0 0 + s0 + window.getD 9 0 + s1) % 2 ^ 32
    w :: extend n (window.tail ++ [w])

def round (s : State) (kw : Nat) : State :=
  let s1 := rotr s.e 6 ^^^ rotr s.e 11 ^^^ rotr s.e 25
  let ch := (s.e &&& s.f) ^^^ ((s.e ^^^ (2 ^ 32 - 1)) &&& s.g)
  let t1 := s.h + s1 + ch + kw
  let s0 := rotr s.a 2 ^^^ rotr s.a 13 ^^^ rotr s.a 22
  let maj := (s.a &&& s.b) ^^^ (s.a &&& s.c) ^^^ (s.b &&& s.c)
  ⟨(t1 + s0 + maj) % 2 ^ 32, s.a, s.b, s.c, (s.d + t1) % 2 ^ 32, s.e, s.f, s.g⟩

def State.add (s t : State) : State :=
  ⟨(s.a + t.a) % 2 ^ 32, (s.b + t.b) % 2 ^ 32, (s.c + t.c) % 2 ^ 32, (s.d + t.d) % 2 ^ 32,
    (s.e + t.e) % 2 ^ 32, (s.f + t.f) % 2 ^ 32, (s.g + t.g) % 2 ^ 32, (s.h + t.h) % 2 ^ 32⟩

def compress (s : State) (block : List Nat) : State :=
  s.add ((List.zipWith (· + ·) roundConstants (block ++ extend 48 block)).foldl round s)

def blocks : Nat → List Nat → List (List Nat)
  | 0, _ => []
  | n + 1, ws => ws.take 16 :: blocks n (ws.drop 16)

def bytesOfWord (w : Nat) : Bytes :=
  [UInt8.ofNat (w / 2 ^ 24), UInt8.ofNat (w / 2 ^ 16), UInt8.ofNat (w / 2 ^ 8), UInt8.ofNat w]

def State.toBytes (s : State) : Bytes :=
  [s.a, s.b, s.c, s.d, s.e, s.f, s.g, s.h].flatMap bytesOfWord

def digest (msg : Bytes) : Bytes :=
  let ws := words (pad msg)
  ((blocks (ws.length / 16) ws).foldl compress initial).toBytes

/-!
The round constants and the initial state are roots of primes.
-/

/--
`word` is the first 32 bits of the fractional part of the `k`-th root of `n`.
-/
def RootBits (k n word : Nat) : Prop :=
  word < 2 ^ 32 ∧ ∃ whole ≤ n, (2 ^ 32 * whole + word) ^ k ≤ 2 ^ (32 * k) * n ∧
    2 ^ (32 * k) * n < (2 ^ 32 * whole + word + 1) ^ k

instance (k n word : Nat) : Decidable (RootBits k n word) := by
  unfold RootBits
  infer_instance

def firstPrimes : List Nat := (List.range 312).filter fun p => 2 ≤ p ∧ ∀ d < p, d ∣ p → d = 1

theorem mem_firstPrimes (p : Nat) : p ∈ firstPrimes ↔ p < 312 ∧ p.Prime := by
  simp only [firstPrimes, List.mem_filter, List.mem_range, decide_eq_true_eq, Nat.prime_def_lt]

/--
Below 324 a prime is told by its divisors below 18.
-/
theorem prime_iff_of_lt {p : Nat} (h : p < 324)
    : p.Prime ↔ 2 ≤ p ∧ ∀ d < 18, 2 ≤ d → d < p → p % d ≠ 0 := by
  rw [Nat.prime_def_le_sqrt]
  refine and_congr_right fun htwo => ⟨fun hp d _ hd hlt hmod => ?_, fun hp d hd hsqrt hdvd => ?_⟩
  . have hprime := Nat.prime_def_le_sqrt.mpr ⟨htwo, hp⟩
    rcases (Nat.dvd_prime hprime).mp (Nat.dvd_of_mod_eq_zero hmod) with rfl | rfl
    . omega
    . omega
  . have hsquare := Nat.le_sqrt.mp hsqrt
    have hlt : d < p := by
      have htwice := Nat.mul_le_mul_left d hd
      omega
    have hsmall : d < 18 := by
      by_contra hge
      have hlarge := Nat.mul_le_mul (Nat.le_of_not_lt hge) (Nat.le_of_not_lt hge)
      omega
    exact hp d hsmall hd hlt (Nat.mod_eq_zero_of_dvd hdvd)

theorem firstPrimes_eq : firstPrimes = (List.range 312).filter fun p =>
    2 ≤ p ∧ ∀ d < 18, 2 ≤ d → d < p → p % d ≠ 0 := by
  refine List.filter_congr fun p hp => ?_
  rw [decide_eq_decide, ← prime_iff_of_lt ((List.mem_range.mp hp).trans (by decide)),
    Nat.prime_def_lt]

theorem length_firstPrimes : firstPrimes.length = roundConstants.length := by
  rw [firstPrimes_eq]
  decide +kernel

theorem RootBits.of_le {k n word : Nat} (bound : Nat)
    (h : word < 2 ^ 32 ∧ ∃ whole ≤ min bound n, (2 ^ 32 * whole + word) ^ k ≤ 2 ^ (32 * k) * n ∧
      2 ^ (32 * k) * n < (2 ^ 32 * whole + word + 1) ^ k) : RootBits k n word := by
  rcases h with ⟨hword, whole, hle, h⟩
  exact ⟨hword, whole, hle.trans (Nat.min_le_right _ _), h⟩

theorem rootBits_roundConstants
    : ∀ pair ∈ firstPrimes.zip roundConstants, RootBits 3 pair.1 pair.2 := by
  have h : ∀ pair ∈ firstPrimes.zip roundConstants, pair.2 < 2 ^ 32 ∧ ∃ whole ≤ min 6 pair.1,
      (2 ^ 32 * whole + pair.2) ^ 3 ≤ 2 ^ (32 * 3) * pair.1 ∧
        2 ^ (32 * 3) * pair.1 < (2 ^ 32 * whole + pair.2 + 1) ^ 3 := by
    rw [firstPrimes_eq]
    decide +kernel
  exact fun pair hpair => .of_le 6 (h pair hpair)

theorem rootBits_initial
    : ∀ pair ∈ firstPrimes.zip
        [initial.a, initial.b, initial.c, initial.d, initial.e, initial.f, initial.g, initial.h],
      RootBits 2 pair.1 pair.2 := by
  decide +kernel

end Sha256

def sha256 : HashFn 32 where
  digest := Sha256.digest
  length_digest _ := rfl

-- two blocks, so that the state is carried over once
example : sha256 (List.replicate 56 0x61) =
    [0xb3, 0x54, 0x39, 0xa4, 0xac, 0x6f, 0x09, 0x48, 0xb6, 0xd6, 0xf9, 0xe3, 0xc6, 0xaf, 0x0f, 0x5f,
     0x59, 0x0c, 0xe2, 0x0f, 0x1b, 0xde, 0x70, 0x90, 0xef, 0x79, 0x70, 0x68, 0x6e, 0xc6, 0x73, 0x8a] := by
  decide +kernel
