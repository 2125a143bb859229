import CryptoValid.Lib.Bytes
import Mathlib.Tactic.IntervalCases

/-!
This module contains SHA3-256 and SHA3-512, to run the functions that take a hash function. A lane
is a number below `2 ^ 64`.
-/

namespace Sha3

def roundConstants : List Nat :=
  [0x0000000000000001, 0x0000000000008082, 0x800000000000808a, 0x8000000080008000,
   0x000000000000808b, 0x0000000080000001, 0x8000000080008081, 0x8000000000008009,
   0x000000000000008a, 0x0000000000000088, 0x0000000080008009, 0x000000008000000a,
   0x000000008000808b, 0x800000000000008b, 0x8000000000008089, 0x8000000000008003,
   0x8000000000008002, 0x8000000000000080, 0x000000000000800a, 0x800000008000000a,
   0x8000000080008081, 0x8000000000008080, 0x0000000080000001, 0x8000000080008008]

abbrev Row := Nat × Nat × Nat × Nat × Nat

/--
Five rows of five lanes.
-/
structure State where
  (a b c d e : Row)

def rotl (x n : Nat) : Nat := x * 2 ^ n % 2 ^ 64 + x / 2 ^ (64 - n)

def xorRow : Row → Row → Row
  | (a, b, c, d, e), (a', b', c', d', e') =>
    (a ^^^ a', b ^^^ b', c ^^^ c', d ^^^ d', e ^^^ e')

def theta (s : State) : State :=
  match xorRow s.a (xorRow s.b (xorRow s.c (xorRow s.d s.e))) with
  | (p0, p1, p2, p3, p4) =>
    let mix : Row :=
      (p4 ^^^ rotl p1 1, p0 ^^^ rotl p2 1, p1 ^^^ rotl p3 1, p2 ^^^ rotl p4 1, p3 ^^^ rotl p0 1)
    ⟨xorRow s.a mix, xorRow s.b mix, xorRow s.c mix, xorRow s.d mix, xorRow s.e mix⟩

def rhoPi : State → State
  | ⟨(a0, a1, a2, a3, a4), (b0, b1, b2, b3, b4), (c0, c1, c2, c3, c4), (d0, d1, d2, d3, d4),
      (e0, e1, e2, e3, e4)⟩ =>
    ⟨(a0, rotl b1 44, rotl c2 43, rotl d3 21, rotl e4 14),
     (rotl a3 28, rotl b4 20, rotl c0 3, rotl d1 45, rotl e2 61),
     (rotl a1 1, rotl b2 6, rotl c3 25, rotl d4 8, rotl e0 18),
     (rotl a4 27, rotl b0 36, rotl c1 10, rotl d2 15, rotl e3 56),
     (rotl a2 62, rotl b3 55, rotl c4 39, rotl d0 41, rotl e1 2)⟩

def chiLane (x y z : Nat) : Nat := x ^^^ ((y ^^^ (2 ^ 64 - 1)) &&& z)

def chi : Row → Row
  | (a, b, c, d, e) =>
    (chiLane a b c, chiLane b c d, chiLane c d e, chiLane d e a, chiLane e a b)

def round (s : State) (rc : Nat) : State :=
  match rhoPi (theta s) with
  | ⟨a, b, c, d, e⟩ =>
    match chi a with
    | (a0, rest) => ⟨(a0 ^^^ rc, rest), chi b, chi c, chi d, chi e⟩

def permute (s : State) : State := roundConstants.foldl round s

def lanesOf : Bytes → List Nat
  | a :: b :: c :: d :: e :: f :: g :: h :: rest =>
    [h, g, f, e, d, c, b, a].foldl (fun n byte => 256 * n + byte.toNat) 0 :: lanesOf rest
  | _ => []

/--
Padding to a multiple of the rate of 136 bytes.
-/
def pad (msg : Bytes) : Bytes :=
  let fill := 136 - msg.length % 136
  if fill = 1 then
    msg ++ [0x86]
  else
    msg ++ 0x06 :: List.replicate (fill - 2) 0 ++ [0x80]

/--
Seventeen lanes at a time are mixed into the state.
-/
def absorb (s : State) : List Nat → State
  | a0 :: a1 :: a2 :: a3 :: a4 :: b0 :: b1 :: b2 :: b3 :: b4 :: c0 :: c1 :: c2 :: c3 :: c4 :: d0 ::
      d1 :: rest =>
    absorb
      (permute ⟨xorRow s.a (a0, a1, a2, a3, a4), xorRow s.b (b0, b1, b2, b3, b4),
        xorRow s.c (c0, c1, c2, c3, c4), xorRow s.d (d0, d1, 0, 0, 0), s.e⟩)
      rest
  | _ => s

def bytesOfLane (lane : Nat) : Bytes :=
  (List.range 8).map fun i => UInt8.ofNat (lane / 256 ^ i)

def digest (msg : Bytes) : Bytes :=
  let zero : Row := (0, 0, 0, 0, 0)
  match absorb ⟨zero, zero, zero, zero, zero⟩ (lanesOf (pad msg)) with
  | ⟨(a0, a1, a2, a3, _), _, _, _, _⟩ => [a0, a1, a2, a3].flatMap bytesOfLane

/-!
The rate of SHA3-512 is 72 bytes, nine lanes at a time.
-/

def pad512 (msg : Bytes) : Bytes :=
  let fill := 72 - msg.length % 72
  if fill = 1 then
    msg ++ [0x86]
  else
    msg ++ 0x06 :: List.replicate (fill - 2) 0 ++ [0x80]

def absorb512 (s : State) : List Nat → State
  | a0 :: a1 :: a2 :: a3 :: a4 :: b0 :: b1 :: b2 :: b3 :: rest =>
    absorb512
      (permute ⟨xorRow s.a (a0, a1, a2, a3, a4), xorRow s.b (b0, b1, b2, b3, 0), s.c, s.d, s.e⟩)
      rest
  | _ => s

def digest512 (msg : Bytes) : Bytes :=
  let zero : Row := (0, 0, 0, 0, 0)
  match absorb512 ⟨zero, zero, zero, zero, zero⟩ (lanesOf (pad512 msg)) with
  | ⟨(a0, a1, a2, a3, a4), (b0, b1, b2, _, _), _, _, _⟩ =>
    [a0, a1, a2, a3, a4, b0, b1, b2].flatMap bytesOfLane

/-!
The round constants are the output of a shift register, and the offsets and positions of the lanes
follow the walk that starts at the lane with coordinates `(1, 0)`.
-/

/--
The register after `t` steps, bit `i` is the weight of `2 ^ i`.
-/
def register : Nat → Nat
  | 0 => 1
  | t + 1 =>
    let r := 2 * register t
    if r < 256 then r else r ^^^ 0x171

/--
The bits of a round constant are at the positions `2 ^ j - 1`.
-/
def registerConstant (round : Nat) : Nat :=
  ((List.range 7).map fun j => register (j + 7 * round) % 2 * 2 ^ (2 ^ j - 1)).sum

theorem roundConstants_eq : roundConstants = (List.range 24).map registerConstant := by
  decide +kernel

def Row.lane : Row → Nat → Nat
  | (l, _, _, _, _), 0 => l
  | (_, l, _, _, _), 1 => l
  | (_, _, l, _, _), 2 => l
  | (_, _, _, l, _), 3 => l
  | (_, _, _, _, l), _ => l

/--
The lane with coordinates `x` and `y`.
-/
def State.lane (s : State) (x : Nat) : Nat → Nat
  | 0 => Row.lane s.a x
  | 1 => Row.lane s.b x
  | 2 => Row.lane s.c x
  | 3 => Row.lane s.d x
  | _ => Row.lane s.e x

/--
The coordinates after `t` steps of the walk.
-/
def walk : Nat → Nat × Nat
  | 0 => (1, 0)
  | t + 1 => ((walk t).2, (2 * (walk t).1 + 3 * (walk t).2) % 5)

/--
Every lane but the first one is rotated by the triangular number of its step and moved to the
coordinates of the next step.
-/
theorem lane_rhoPi (s : State) (t : Nat) (ht : t < 24)
    : (rhoPi s).lane (walk (t + 1)).1 (walk (t + 1)).2
        = rotl (s.lane (walk t).1 (walk t).2) ((t + 1) * (t + 2) / 2 % 64) := by
  rcases s with ⟨⟨_, _, _, _, _⟩, ⟨_, _, _, _, _⟩, ⟨_, _, _, _, _⟩, ⟨_, _, _, _, _⟩, ⟨_, _, _, _, _⟩⟩
  interval_cases t
  all_goals rfl

theorem lane_rhoPi_zero (s : State) : (rhoPi s).lane 0 0 = s.lane 0 0 := rfl

end Sha3

def sha3_256 : HashFn 32 where
  digest := Sha3.digest
  length_digest _ := by simp [Sha3.digest, Sha3.bytesOfLane]

-- a message of one whole block is followed by a block of padding
example : sha3_256 (List.replicate 136 0x61) =
    [0x3f, 0xc5, 0x55, 0x9f, 0x14, 0xdb, 0x8e, 0x45, 0x3a, 0x0a, 0x30, 0x91, 0xed, 0xbd, 0x2b, 0xc2,
     0x5e, 0x11, 0x52, 0x8d, 0x81, 0xc6, 0x6f, 0xa5, 0x70, 0xa4, 0xef, 0xdc, 0xc2, 0x69, 0x5e, 0xe1] := by
  decide +kernel

def sha3_512 : HashFn 64 where
  digest := Sha3.digest512
  length_digest _ := by simp [Sha3.digest512, Sha3.bytesOfLane]

example : sha3_512 (List.replicate 72 0x61) =
    [0xa8, 0xae, 0x72, 0x2a, 0x78, 0xe1, 0x0c, 0xbb, 0xc4, 0x13, 0x88, 0x6c, 0x02, 0xeb, 0x5b, 0x36,
     0x9a, 0x03, 0xf6, 0x56, 0x00, 0x84, 0xaf, 0xf5, 0x66, 0xbd, 0x59, 0x7b, 0xb7, 0xad, 0x8c, 0x1c,
     0xcd, 0x86, 0xe8, 0x12, 0x96, 0x85, 0x23, 0x59, 0xbf, 0x2f, 0xad, 0xdb, 0x51, 0x53, 0xc0, 0xa7,
     0x44, 0x57, 0x22, 0x98, 0x78, 0x75, 0xe7, 0x42, 0x87, 0xad, 0xac, 0x21, 0xad, 0xeb, 0xe9, 0x52] := by
  decide +kernel
