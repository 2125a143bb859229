import CryptoValid.Lib.Sha3
import CryptoValid.Rust.Sha256

/-!
This module contains `keccak.rs`, SHA3-256 in machine words, and the proof that it computes the
digests of the standard. An array is the list of its elements.
-/

namespace CryptoValid
namespace RustKeccak

abbrev U64 := BitVec 64

def rc : List U64 :=
  [0x0000000000000001, 0x0000000000008082, 0x800000000000808A, 0x8000000080008000,
   0x000000000000808B, 0x0000000080000001, 0x8000000080008081, 0x8000000000008009,
   0x000000000000008A, 0x0000000000000088, 0x0000000080008009, 0x000000008000000A,
   0x000000008000808B, 0x800000000000008B, 0x8000000000008089, 0x8000000000008003,
   0x8000000000008002, 0x8000000000000080, 0x000000000000800A, 0x800000008000000A,
   0x8000000080008081, 0x8000000000008080, 0x0000000080000001, 0x8000000080008008]

def rot : List Nat :=
  [0, 1, 62, 28, 27, 36, 44, 6, 55, 20, 3, 10, 43, 25, 39, 41, 45, 15, 21, 8, 18, 2, 61, 56, 14]

/--
The array `c`.
-/
def columns (s : List U64) : List U64 :=
  (List.range 5).foldl
    (fun c x =>
      c.set x
        (s.getD x 0 ^^^ s.getD (x + 5) 0 ^^^ s.getD (x + 10) 0 ^^^ s.getD (x + 15) 0
          ^^^ s.getD (x + 20) 0))
    (List.replicate 5 0)

/--
The loop over `x` and the one over `y` in it, which counts in steps of five.
-/
def theta (s : List U64) : List U64 :=
  let c := columns s
  (List.range 5).foldl
    (fun s x =>
      let d := c.getD ((x + 4) % 5) 0 ^^^ (c.getD ((x + 1) % 5) 0).rotateLeft 1
      [0, 5, 10, 15, 20].foldl (fun s y => s.set (x + y) (s.getD (x + y) 0 ^^^ d)) s)
    s

/--
The array `b`.
-/
def rhoPi (s : List U64) : List U64 :=
  (List.range 5).foldl
    (fun b x =>
      (List.range 5).foldl
        (fun b y =>
          b.set (y + 5 * ((2 * x + 3 * y) % 5))
            ((s.getD (x + 5 * y) 0).rotateLeft (rot.getD (x + 5 * y) 0)))
        b)
    (List.replicate 25 0)

def chi (b s : List U64) : List U64 :=
  (List.range 5).foldl
    (fun s x =>
      (List.range 5).foldl
        (fun s y =>
          s.set (x + 5 * y)
            (b.getD (x + 5 * y) 0
              ^^^ ((~~~ b.getD ((x + 1) % 5 + 5 * y) 0) &&& b.getD ((x + 2) % 5 + 5 * y) 0)))
        s)
    s

def round (s : List U64) (rc : U64) : List U64 :=
  let s := theta s
  let s := chi (rhoPi s) s
  s.set 0 (s.getD 0 0 ^^^ rc)

def keccakF (s : List U64) : List U64 := rc.foldl round s

/--
`while !msg.len().is_multiple_of(RATE) { msg.push(0); }`
-/
def pushZeros (msg : Bytes) : Bytes :=
  if msg.length % 136 ≠ 0 then pushZeros (msg ++ [0]) else msg
termination_by (136 - msg.length % 136) % 136
decreasing_by
  rw [List.length_append, List.length_singleton]
  omega

def padded (data : Bytes) : Bytes :=
  let msg := pushZeros (data ++ [0x06])
  let last := msg.length - 1
  msg.set last (msg.getD last 0 ^^^ 0x80)

/--
The eight bytes of `lane`, the last one first.
-/
def value (lane : Bytes) : U64 :=
  [7, 6, 5, 4, 3, 2, 1, 0].foldl
    (fun v j => (v <<< 8) ||| BitVec.ofNat 64 (lane.getD j 0).toNat)
    0

/--
The loop over `block.chunks(8)`, of which a block of the rate has seventeen.
-/
def mix (s : List U64) (block : Bytes) : List U64 :=
  (List.range 17).foldl
    (fun s i => s.set i (s.getD i 0 ^^^ value ((block.drop (8 * i)).take 8)))
    s

/--
`msg.chunks(RATE)`
-/
def chunks (msg : Bytes) : List Bytes :=
  if msg = [] then [] else msg.take 136 :: chunks (msg.drop 136)
termination_by msg.length
decreasing_by
  rename_i hmsg
  have := List.length_pos_of_ne_nil hmsg
  rw [List.length_drop]
  omega

def toLeBytes (x : U64) : Bytes :=
  (List.range 8).map fun i => UInt8.ofNat (x.toNat / 256 ^ i)

/--
`format!("{:02x}", b)`
-/
def format02x (b : UInt8) : Str := [Hex.digit (b.toNat / 16), Hex.digit (b.toNat % 16)]

def hex (data : Bytes) : Str :=
  let s := (chunks (padded data)).foldl (fun s block => keccakF (mix s block)) (List.replicate 25 0)
  (s.take 4).flatMap fun lane => (toLeBytes lane).flatMap format02x

/-!
### Loops that write each lane once
-/

theorem foldl_set_getD {ι : Type} (idx : ι → Nat) (val : ι → U64 → U64) (l : List ι) (s : List U64)
    (hnodup : (l.map idx).Nodup) (hlt : ∀ p ∈ l, idx p < s.length)
    : (∀ p ∈ l,
        (l.foldl (fun s p => s.set (idx p) (val p (s.getD (idx p) 0))) s).getD (idx p) 0
          = val p (s.getD (idx p) 0))
        ∧ ∀ j, j ∉ l.map idx →
            (l.foldl (fun s p => s.set (idx p) (val p (s.getD (idx p) 0))) s).getD j 0
              = s.getD j 0 := by
  induction l generalizing s with
  | nil => simp
  | cons q l ih =>
    rw [List.map_cons, List.nodup_cons] at hnodup
    rcases ih (s.set (idx q) (val q (s.getD (idx q) 0))) hnodup.2 (by
      intro p hp
      rw [List.length_set]
      exact hlt p (List.mem_cons_of_mem _ hp)) with ⟨hmem, hnot⟩
    rw [List.foldl_cons]
    have hset {j : Nat} (hj : j ≠ idx q)
        : (s.set (idx q) (val q (s.getD (idx q) 0))).getD j 0 = s.getD j 0 := by
      rw [List.getD_eq_getElem?_getD, List.getElem?_set_ne (Ne.symm hj), List.getD_eq_getElem?_getD]
    refine ⟨fun p hp => ?_, fun j hj => ?_⟩
    . rcases List.mem_cons.mp hp with rfl | hp
      . rw [hnot _ hnodup.1, List.getD_eq_getElem?_getD, List.getElem?_set_self (hlt p (by simp))]
        rfl
      . rw [hmem p hp, hset fun heq => hnodup.1 (List.mem_map.mpr ⟨p, hp, heq⟩)]
    . rw [List.map_cons, List.mem_cons, not_or] at hj
      rw [hnot j hj.2, hset hj.1]

/--
The indices of the two nested loops over five.
-/
def pairs : List (Nat × Nat) := (List.range 5).flatMap fun x => (List.range 5).map fun y => (x, y)

theorem mem_pairs {x y : Nat} (hx : x < 5) (hy : y < 5) : (x, y) ∈ pairs := by
  simp [pairs, hx, hy]

theorem foldl_pairs {β : Type} (f : β → Nat × Nat → β) (s : β)
    : (List.range 5).foldl (fun s x => (List.range 5).foldl (fun s y => f s (x, y)) s) s
        = pairs.foldl f s := by
  rw [pairs, List.foldl_flatMap]
  simp only [List.foldl_map]

/--
Two nested loops that write each lane once.
-/
theorem foldl_pairs_getD (idx : Nat × Nat → Nat) (val : Nat × Nat → U64 → U64) (s : List U64)
    (hnodup : (pairs.map idx).Nodup) (hlt : ∀ p ∈ pairs, idx p < 25) (h : s.length = 25) (x y : Nat)
    (hx : x < 5) (hy : y < 5)
    : ((List.range 5).foldl
          (fun s x =>
            (List.range 5).foldl
              (fun s y => s.set (idx (x, y)) (val (x, y) (s.getD (idx (x, y)) 0)))
              s)
          s).getD (idx (x, y)) 0
        = val (x, y) (s.getD (idx (x, y)) 0) := by
  have hloop := foldl_pairs (fun (s : List U64) p => s.set (idx p) (val p (s.getD (idx p) 0))) s
  rw [hloop]
  exact (foldl_set_getD idx val pairs s hnodup (by rw [h]; exact hlt)).1 (x, y) (mem_pairs hx hy)

theorem getD_theta (s : List U64) (h : s.length = 25) (x y : Nat) (hx : x < 5) (hy : y < 5)
    : (theta s).getD (x + 5 * y) 0
        = s.getD (x + 5 * y) 0
          ^^^ ((columns s).getD ((x + 4) % 5) 0
            ^^^ ((columns s).getD ((x + 1) % 5) 0).rotateLeft 1) := by
  have hsteps : [0, 5, 10, 15, 20] = (List.range 5).map fun y => 5 * y := rfl
  rw [theta]
  simp only [hsteps, List.foldl_map]
  exact foldl_pairs_getD (fun p => p.1 + 5 * p.2)
    (fun p lane =>
      lane ^^^ ((columns s).getD ((p.1 + 4) % 5) 0
        ^^^ ((columns s).getD ((p.1 + 1) % 5) 0).rotateLeft 1))
    s (by decide) (by decide) h x y hx hy

theorem getD_rhoPi (s : List U64) (x y : Nat) (hx : x < 5) (hy : y < 5)
    : (rhoPi s).getD (y + 5 * ((2 * x + 3 * y) % 5)) 0
        = (s.getD (x + 5 * y) 0).rotateLeft (rot.getD (x + 5 * y) 0) :=
  foldl_pairs_getD (fun p => p.2 + 5 * ((2 * p.1 + 3 * p.2) % 5))
    (fun p _ => (s.getD (p.1 + 5 * p.2) 0).rotateLeft (rot.getD (p.1 + 5 * p.2) 0))
    (List.replicate 25 0) (by decide) (by decide) List.length_replicate x y hx hy

theorem getD_chi (b s : List U64) (h : s.length = 25) (x y : Nat) (hx : x < 5) (hy : y < 5)
    : (chi b s).getD (x + 5 * y) 0
        = b.getD (x + 5 * y) 0
          ^^^ ((~~~ b.getD ((x + 1) % 5 + 5 * y) 0) &&& b.getD ((x + 2) % 5 + 5 * y) 0) :=
  foldl_pairs_getD (fun p => p.1 + 5 * p.2)
    (fun p _ =>
      b.getD (p.1 + 5 * p.2) 0
        ^^^ ((~~~ b.getD ((p.1 + 1) % 5 + 5 * p.2) 0) &&& b.getD ((p.1 + 2) % 5 + 5 * p.2) 0))
    s (by decide) (by decide) h x y hx hy

theorem length_foldl {ι : Type} (f : List U64 → ι → List U64)
    (hf : ∀ s p, (f s p).length = s.length) (l : List ι) (s : List U64)
    : (l.foldl f s).length = s.length := by
  induction l generalizing s with
  | nil => rfl
  | cons p l ih => rw [List.foldl_cons, ih, hf]

theorem length_theta (s : List U64) : (theta s).length = s.length :=
  length_foldl _ (fun _ _ => length_foldl _ (fun _ _ => List.length_set) _ _) _ _

theorem length_chi (b s : List U64) : (chi b s).length = s.length :=
  length_foldl _ (fun _ _ => length_foldl _ (fun _ _ => List.length_set) _ _) _ _

theorem length_round (s : List U64) (rc : U64) : (round s rc).length = s.length := by
  rw [round, List.length_set, length_chi, length_theta]

theorem length_keccakF (s : List U64) : (keccakF s).length = s.length :=
  length_foldl _ length_round _ _

theorem length_mix (s : List U64) (block : Bytes) : (mix s block).length = s.length :=
  length_foldl _ (fun _ _ => List.length_set) _ _

/-!
### The rounds
-/

def row (s : List U64) (y : Nat) : Sha3.Row :=
  ((s.getD (0 + 5 * y) 0).toNat, (s.getD (1 + 5 * y) 0).toNat, (s.getD (2 + 5 * y) 0).toNat,
    (s.getD (3 + 5 * y) 0).toNat, (s.getD (4 + 5 * y) 0).toNat)

def state (s : List U64) : Sha3.State := ⟨row s 0, row s 1, row s 2, row s 3, row s 4⟩

theorem toNat_rotateLeft (x : U64) (n : Nat) (hn : n < 64)
    : (x.rotateLeft n).toNat = Sha3.rotl x.toNat n := by
  have hx := x.isLt
  have hlt : x.toNat / 2 ^ (64 - n) < 2 ^ n := by
    rw [Nat.div_lt_iff_lt_mul (by positivity), ← Nat.pow_add, Nat.add_sub_cancel' (by omega)]
    exact hx
  have hmul : x.toNat * 2 ^ n % 2 ^ 64 = x.toNat % 2 ^ (64 - n) * 2 ^ n := by
    rw [← Nat.mul_mod_mul_right, ← Nat.pow_add, Nat.sub_add_cancel (by omega)]
  rw [BitVec.toNat_rotateLeft, Nat.mod_eq_of_lt hn, Nat.shiftRight_eq_div_pow, Nat.shiftLeft_eq,
    hmul, ← Nat.shiftLeft_eq, ← Nat.shiftLeft_add_eq_or_of_lt hlt, Sha3.rotl, hmul,
    Nat.shiftLeft_eq]

theorem toNat_not (x : U64) : (~~~ x).toNat = x.toNat ^^^ (2 ^ 64 - 1) := by
  rw [← BitVec.xor_allOnes, BitVec.toNat_xor, BitVec.toNat_allOnes]

theorem row_chi (b s : List U64) (h : s.length = 25) (y : Nat) (hy : y < 5)
    : row (chi b s) y = Sha3.chi (row b y) := by
  have hget := getD_chi b s h
  simp only [row, hget 0 y (by decide) hy, hget 1 y (by decide) hy, hget 2 y (by decide) hy,
    hget 3 y (by decide) hy, hget 4 y (by decide) hy, Sha3.chi, Sha3.chiLane, BitVec.toNat_xor,
    BitVec.toNat_and, toNat_not]

/--
The parities of the five columns.
-/
def parity (s : List U64) : Sha3.Row :=
  Sha3.xorRow (row s 0)
    (Sha3.xorRow (row s 1) (Sha3.xorRow (row s 2) (Sha3.xorRow (row s 3) (row s 4))))

theorem columns_eq (s : List U64)
    : (((columns s).getD 0 0).toNat, ((columns s).getD 1 0).toNat, ((columns s).getD 2 0).toNat,
        ((columns s).getD 3 0).toNat, ((columns s).getD 4 0).toNat) = parity s := by
  have hcolumns
      : columns s = (List.range 5).map fun x =>
          s.getD x 0 ^^^ s.getD (x + 5) 0 ^^^ s.getD (x + 10) 0 ^^^ s.getD (x + 15) 0
            ^^^ s.getD (x + 20) 0 := rfl
  have hget (x : Nat) (hx : x < 5)
      : ((columns s).getD x 0).toNat
          = (s.getD x 0).toNat ^^^ ((s.getD (x + 5) 0).toNat ^^^ ((s.getD (x + 10) 0).toNat
            ^^^ ((s.getD (x + 15) 0).toNat ^^^ (s.getD (x + 20) 0).toNat))) := by
    rw [hcolumns, List.getD_eq_getElem?_getD, List.getElem?_map, List.getElem?_range hx]
    simp only [Option.map_some, Option.getD_some, BitVec.toNat_xor, Nat.xor_assoc]
  rw [hget 0 (by decide), hget 1 (by decide), hget 2 (by decide), hget 3 (by decide),
    hget 4 (by decide)]
  rfl

/--
What `theta` adds to every row.
-/
def mixRow : Sha3.Row → Sha3.Row
  | (p0, p1, p2, p3, p4) =>
    (p4 ^^^ Sha3.rotl p1 1, p0 ^^^ Sha3.rotl p2 1, p1 ^^^ Sha3.rotl p3 1, p2 ^^^ Sha3.rotl p4 1,
      p3 ^^^ Sha3.rotl p0 1)

theorem row_theta (s : List U64) (h : s.length = 25) (y : Nat) (hy : y < 5)
    : row (theta s) y = Sha3.xorRow (row s y) (mixRow (parity s)) := by
  have hget := getD_theta s h
  rw [← columns_eq]
  simp only [row, hget 0 y (by decide) hy, hget 1 y (by decide) hy, hget 2 y (by decide) hy,
    hget 3 y (by decide) hy, hget 4 y (by decide) hy, BitVec.toNat_xor,
    toNat_rotateLeft _ 1 (by decide)]
  rfl

theorem state_theta (s : List U64) (h : s.length = 25)
    : state (theta s) = Sha3.theta (state s) := by
  rw [state, row_theta s h 0 (by decide), row_theta s h 1 (by decide), row_theta s h 2 (by decide),
    row_theta s h 3 (by decide), row_theta s h 4 (by decide)]
  rfl

theorem rot_lt : ∀ i < 25, rot.getD i 0 < 64 := by decide

theorem rotl_zero {x : Nat} (hx : x < 2 ^ 64) : Sha3.rotl x 0 = x := by
  rw [Sha3.rotl]
  omega

/--
The lane that `rhoPi` moves to the place of the column `x` in the row `y`.
-/
def moved (s : List U64) (x y : Nat) : Nat :=
  Sha3.rotl (s.getD ((x + 3 * y) % 5 + 5 * x) 0).toNat (rot.getD ((x + 3 * y) % 5 + 5 * x) 0)

theorem state_rhoPi (s : List U64) : state (rhoPi s) = Sha3.rhoPi (state s) := by
  have hget (x y : Nat) (hx : x < 5) (hy : y < 5)
      : ((rhoPi s).getD (x + 5 * y) 0).toNat = moved s x y := by
    have h := getD_rhoPi s ((x + 3 * y) % 5) x (by omega) hx
    rw [show (2 * ((x + 3 * y) % 5) + 3 * x) % 5 = y by omega] at h
    rw [h, toNat_rotateLeft _ _ (rot_lt _ (by omega)), moved]
  have hrow (y : Nat) (hy : y < 5)
      : row (rhoPi s) y = (moved s 0 y, moved s 1 y, moved s 2 y, moved s 3 y, moved s 4 y) := by
    rw [row, hget 0 y (by decide) hy, hget 1 y (by decide) hy, hget 2 y (by decide) hy,
      hget 3 y (by decide) hy, hget 4 y (by decide) hy]
  have hzero : moved s 0 0 = (s.getD (0 + 5 * 0) 0).toNat := rotl_zero (BitVec.isLt _)
  rw [state, hrow 0 (by decide), hrow 1 (by decide), hrow 2 (by decide), hrow 3 (by decide),
    hrow 4 (by decide), hzero]
  rfl

theorem state_round (s : List U64) (h : s.length = 25) (rc : U64)
    : state (round s rc) = Sha3.round (state s) rc.toNat := by
  have htheta : (theta s).length = 25 := by rw [length_theta, h]
  have hrow := row_chi (rhoPi (theta s)) (theta s) htheta
  rw [Sha3.round, ← state_theta s h, ← state_rhoPi, round]
  generalize hu : chi (rhoPi (theta s)) (theta s) = u at hrow
  generalize rhoPi (theta s) = b at hrow
  cases u with
  | nil =>
    have hlen := congrArg List.length hu
    rw [length_chi, htheta] at hlen
    cases hlen
  | cons lane u =>
    show (⟨((lane ^^^ rc).toNat, (row (lane :: u) 0).2), row (lane :: u) 1, row (lane :: u) 2,
      row (lane :: u) 3, row (lane :: u) 4⟩ : Sha3.State) = _
    have hzero := congrArg Prod.fst (hrow 0 (by decide))
    rw [BitVec.toNat_xor, hrow 0 (by decide), hrow 1 (by decide), hrow 2 (by decide),
      hrow 3 (by decide), hrow 4 (by decide),
      show lane.toNat = (Sha3.chi (row b 0)).1 from hzero]
    rfl

theorem toNat_rc : rc.map BitVec.toNat = Sha3.roundConstants := rfl

theorem state_keccakF (s : List U64) (h : s.length = 25)
    : state (keccakF s) = Sha3.permute (state s) := by
  have hloop (l : List U64)
      : ∀ s, s.length = 25 →
          state (l.foldl round s) = (l.map BitVec.toNat).foldl Sha3.round (state s) := by
    induction l with
    | nil => intro s h; rfl
    | cons rc l ih =>
      intro s h
      rw [List.foldl_cons, ih _ (by rw [length_round, h]), state_round s h, List.map_cons,
        List.foldl_cons]
  rw [keccakF, hloop rc s h, toNat_rc, Sha3.permute]

/-!
### The blocks
-/

/--
There is room for eight bytes in a lane.
-/
theorem toNat_foldl (l : List UInt8) (v : U64) (n : Nat) (hv : v.toNat < 2 ^ (8 * n))
    (hn : l.length + n ≤ 8)
    : (l.foldl (fun (v : U64) b => (v <<< 8) ||| BitVec.ofNat 64 b.toNat) v).toNat
        = l.foldl (fun n b => 256 * n + b.toNat) v.toNat := by
  induction l generalizing v n with
  | nil => rfl
  | cons b l ih =>
    have hb := b.toNat_lt
    rw [List.length_cons] at hn
    have hle : 2 ^ (8 * n) ≤ 2 ^ 56 := Nat.pow_le_pow_right (by decide) (by omega)
    have hstep : ((v <<< 8) ||| BitVec.ofNat 64 b.toNat).toNat = 256 * v.toNat + b.toNat := by
      rw [BitVec.toNat_or, BitVec.toNat_shiftLeft, BitVec.toNat_ofNat, Nat.shiftLeft_eq,
        Nat.mod_eq_of_lt (by omega), Nat.mod_eq_of_lt (by omega), ← Nat.shiftLeft_eq,
        ← Nat.shiftLeft_add_eq_or_of_lt (by omega), Nat.shiftLeft_eq, Nat.mul_comm]
    rw [List.foldl_cons, List.foldl_cons, ih _ (n + 1) _ (by omega), hstep]
    rw [hstep, Nat.mul_succ, Nat.pow_add]
    omega

theorem toNat_value (lane : Bytes) (h : lane.length = 8)
    : [(value lane).toNat] = Sha3.lanesOf lane := by
  match lane, h with
  | [a, b, c, d, e, f, g, h], _ =>
    exact congrArg (fun n => [n])
      (toNat_foldl [h, g, f, e, d, c, b, a] 0 0 (by decide) (le_refl 8))

theorem lanesOf_append (n : Nat) (msg rest : Bytes) (h : msg.length = 8 * n)
    : Sha3.lanesOf (msg ++ rest) = Sha3.lanesOf msg ++ Sha3.lanesOf rest := by
  induction n generalizing msg with
  | zero => rw [List.length_eq_zero_iff.mp h]; rfl
  | succ n ih =>
    match msg, h with
    | a :: b :: c :: d :: e :: f :: g :: i :: msg, h =>
      simp only [List.cons_append, Sha3.lanesOf, ih msg (by simpa [Nat.mul_succ] using h)]

theorem lanesOf_eq (n : Nat) (msg : Bytes) (h : msg.length = 8 * n)
    : Sha3.lanesOf msg
        = (List.range n).map fun i => (value ((msg.drop (8 * i)).take 8)).toNat := by
  induction n generalizing msg with
  | zero => rw [List.length_eq_zero_iff.mp h]; rfl
  | succ n ih =>
    have hfirst : (msg.take 8).length = 8 := by rw [List.length_take]; omega
    rw [← List.take_append_drop 8 msg, lanesOf_append 1 _ _ hfirst, ← toNat_value _ hfirst,
      ih _ (by rw [List.length_drop]; omega), List.take_append_drop, List.range_succ_eq_map,
      List.map_cons, List.map_map]
    simp only [Function.comp_def, List.drop_drop, Nat.mul_succ, Nat.mul_zero, List.drop_zero,
      Nat.add_comm]
    rfl

/--
A block is mixed into the first seventeen lanes.
-/
theorem absorb_block (s : List U64) (h : s.length = 25) (block : Bytes)
    (hblock : block.length = 136) (rest : List Nat)
    : Sha3.absorb (state s) (Sha3.lanesOf block ++ rest)
        = Sha3.absorb (Sha3.permute (state (mix s block))) rest := by
  have hmix := foldl_set_getD id (fun i lane => lane ^^^ value ((block.drop (8 * i)).take 8))
    (List.range 17) s (by decide) (by rw [h]; decide)
  have hlow (i : Nat) (hi : i < 17)
      : ((mix s block).getD i 0).toNat
          = (s.getD i 0).toNat ^^^ (value ((block.drop (8 * i)).take 8)).toNat := by
    rw [← BitVec.toNat_xor]
    exact congrArg _ (hmix.1 i (List.mem_range.mpr hi))
  have hhigh (i : Nat) (hi : 17 ≤ i)
      : ((mix s block).getD i 0).toNat = (s.getD i 0).toNat ^^^ 0 := by
    rw [Nat.xor_zero]
    exact congrArg _ (hmix.2 i (by simpa using hi))
  rw [lanesOf_eq 17 block hblock]
  generalize hv : (fun i => (value ((block.drop (8 * i)).take 8)).toNat) = v
  have hlow (i : Nat) (hi : i < 17)
      : ((mix s block).getD i 0).toNat = (s.getD i 0).toNat ^^^ v i := by
    rw [hlow i hi, ← hv]
  have hrow (y : Nat) (hy : y < 3)
      : row (mix s block) y
          = Sha3.xorRow (row s y)
            (v (0 + 5 * y), v (1 + 5 * y), v (2 + 5 * y), v (3 + 5 * y), v (4 + 5 * y)) := by
    rw [row, hlow _ (by omega), hlow _ (by omega), hlow _ (by omega), hlow _ (by omega),
      hlow _ (by omega)]
    rfl
  have hthree : row (mix s block) 3 = Sha3.xorRow (row s 3) (v 15, v 16, 0, 0, 0) := by
    rw [row, hlow _ (by omega), hlow _ (by omega), hhigh _ (by omega), hhigh _ (by omega),
      hhigh _ (by omega)]
    rfl
  have hfour : row (mix s block) 4 = row s 4 := by
    rw [row, hhigh _ (by omega), hhigh _ (by omega), hhigh _ (by omega), hhigh _ (by omega),
      hhigh _ (by omega)]
    simp only [Nat.xor_zero]
    rfl
  rw [state, state, hrow 0 (by decide), hrow 1 (by decide), hrow 2 (by decide), hthree, hfour]
  rfl

theorem foldl_chunks (n : Nat) (msg : Bytes) (h : msg.length = 136 * n) (s : List U64)
    (hs : s.length = 25)
    : state ((chunks msg).foldl (fun s block => keccakF (mix s block)) s)
        = Sha3.absorb (state s) (Sha3.lanesOf msg) := by
  induction n generalizing msg s with
  | zero =>
    rw [List.length_eq_zero_iff.mp h, chunks]
    rfl
  | succ n ih =>
    have htake : (msg.take 136).length = 136 := by rw [List.length_take]; omega
    have hne : msg ≠ [] := by
      intro hnil
      rw [hnil] at h
      simp at h
    have hmix : (mix s (msg.take 136)).length = 25 := by rw [length_mix, hs]
    have hlanes := lanesOf_append 17 (msg.take 136) (msg.drop 136) htake
    rw [List.take_append_drop] at hlanes
    rw [chunks, if_neg hne, List.foldl_cons,
      ih (msg.drop 136) (by rw [List.length_drop]; omega) _ (by rw [length_keccakF, hmix]),
      state_keccakF _ hmix, hlanes, absorb_block s hs _ htake]

/-!
### The message
-/

theorem pushZeros_eq (msg : Bytes)
    : pushZeros msg = msg ++ List.replicate ((136 - msg.length % 136) % 136) 0 := by
  induction msg using pushZeros.induct with
  | case1 msg h ih =>
    rw [pushZeros, if_pos h, ih, List.append_assoc, List.length_append, List.length_singleton,
      show (136 - msg.length % 136) % 136 = (136 - (msg.length + 1) % 136) % 136 + 1 by omega,
      List.replicate_succ]
    rfl
  | case2 msg h =>
    rw [pushZeros, if_neg h, show (136 - msg.length % 136) % 136 = 0 by omega]
    exact (List.append_nil _).symm

/--
A message that ends one byte before the rate has one byte of padding.
-/
theorem padded_eq (data : Bytes) : padded data = Sha3.pad data := by
  have hset (l : Bytes) (b : UInt8)
      : (l ++ [b]).set ((l ++ [b]).length - 1) ((l ++ [b]).getD ((l ++ [b]).length - 1) 0 ^^^ 0x80)
          = l ++ [b ^^^ 0x80] := by
    rw [List.length_append, List.length_singleton, Nat.add_sub_cancel,
      List.getD_eq_getElem?_getD, List.getElem?_concat_length,
      List.set_append_right _ _ (le_refl _), Nat.sub_self]
    rfl
  rw [Sha3.pad, padded, pushZeros_eq, List.length_append, List.length_singleton]
  split
  . rw [show (136 - (data.length + 1) % 136) % 136 = 0 by omega, List.replicate_zero,
      List.append_nil]
    exact hset data 0x06
  . rw [show (136 - (data.length + 1) % 136) % 136 = 136 - data.length % 136 - 2 + 1 by omega,
      List.replicate_succ', ← List.append_assoc]
    refine (hset _ 0).trans ?_
    rw [List.append_assoc data]
    rfl

theorem length_pad (data : Bytes) : ∃ n, (Sha3.pad data).length = 136 * n := by
  refine ⟨(data.length + 136 - data.length % 136) / 136, ?_⟩
  rw [Sha3.pad]
  split
  . simp only [List.length_append, List.length_singleton]
    omega
  . simp only [List.length_append, List.length_cons, List.length_replicate, List.length_nil]
    omega

theorem hex_eq (data : Bytes) : hex data = Hex.ofBytes (sha3_256 data) := by
  rcases length_pad data with ⟨n, hn⟩
  have hstate := foldl_chunks n (Sha3.pad data) hn (List.replicate 25 0) List.length_replicate
  have hlen : ((chunks (padded data)).foldl (fun s block => keccakF (mix s block))
      (List.replicate 25 0)).length = 25 := by
    rw [length_foldl _ (fun s block => by rw [length_keccakF, length_mix])]
    exact List.length_replicate
  rw [← padded_eq] at hstate
  rw [hex]
  generalize (chunks (padded data)).foldl (fun s block => keccakF (mix s block))
    (List.replicate 25 0) = s at hstate hlen
  have hdigest : sha3_256 data = (s.take 4).flatMap fun lane => Sha3.bytesOfLane lane.toNat := by
    show Sha3.digest data = _
    match s, hlen with
    | a :: b :: c :: d :: rest, hlen =>
      have hzero : state (List.replicate 25 0)
          = ⟨(0, 0, 0, 0, 0), (0, 0, 0, 0, 0), (0, 0, 0, 0, 0), (0, 0, 0, 0, 0), (0, 0, 0, 0, 0)⟩ :=
        rfl
      rw [Sha3.digest, ← padded_eq, ← hzero, ← hstate]
      rfl
  rw [hdigest, Hex.ofBytes, List.flatMap_assoc]
  rfl

end RustKeccak

/--
Both hand-written hashes are those of the standards, for a message whose length in bits fits a
`u64`.
-/
theorem rustHashes_standard (data : Bytes) (h : data.length < 2 ^ 61)
    : RustSha256.hex data = Hex.ofBytes (sha256 data)
        ∧ RustKeccak.hex data = Hex.ofBytes (sha3_256 data) :=
  ⟨RustSha256.hex_eq data h, RustKeccak.hex_eq data⟩

/--
A message of more than one block of either hash.
-/
def exampleMessage : Bytes := List.replicate 200 0x61

theorem rustHashes_standard_example
    : exampleMessage.length < 2 ^ 61
        ∧ RustSha256.hex exampleMessage = Hex.ofBytes (sha256 exampleMessage)
        ∧ RustKeccak.hex exampleMessage = Hex.ofBytes (sha3_256 exampleMessage) :=
  ⟨by decide +kernel, rustHashes_standard exampleMessage (by decide +kernel)⟩

end CryptoValid
