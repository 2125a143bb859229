import CryptoValid.Lib.Sha256
import CryptoValid.Lib.Text
import Mathlib.Tactic.Positivity

/-!
This module contains `sha256.rs`, SHA-256 in wrapping machine words, and the proof that it computes
the digests of the standard. An array is the list of its elements.
-/

namespace CryptoValid
namespace RustSha256

abbrev U32 := BitVec 32

def k : List U32 :=
  [0x428a2f98, 0x71374491, 0xb5c0fbcf, 0xe9b5dba5, 0x3956c25b, 0x59f111f1, 0x923f82a4, 0xab1c5ed5,
   0xd807aa98, 0x12835b01, 0x243185be, 0x550c7dc3, 0x72be5d74, 0x80deb1fe, 0x9bdc06a7, 0xc19bf174,
   0xe49b69c1, 0xefbe4786, 0x0fc19dc6, 0x240ca1cc, 0x2de92c6f, 0x4a7484aa, 0x5cb0a9dc, 0x76f988da,
   0x983e5152, 0xa831c66d, 0xb00327c8, 0xbf597fc7, 0xc6e00bf3, 0xd5a79147, 0x06ca6351, 0x14292967,
   0x27b70a85, 0x2e1b2138, 0x4d2c6dfc, 0x53380d13, 0x650a7354, 0x766a0abb, 0x81c2c92e, 0x92722c85,
   0xa2bfe8a1, 0xa81a664b, 0xc24b8b70, 0xc76c51a3, 0xd192e819, 0xd6990624, 0xf40e3585, 0x106aa070,
   0x19a4c116, 0x1e376c08, 0x2748774c, 0x34b0bcb5, 0x391c0cb3, 0x4ed8aa4a, 0x5b9cca4f, 0x682e6ff3,
   0x748f82ee, 0x78a5636f, 0x84c87814, 0x8cc70208, 0x90befffa, 0xa4506ceb, 0xbef9a3f7, 0xc67178f2]

/--
The eight words of `h`, and the variables `a` to `hh` of a block.
-/
structure Vars where
  (a b c d e f g hh : U32)

def init : Vars :=
  ⟨0x6a09e667, 0xbb67ae85, 0x3c6ef372, 0xa54ff53a, 0x510e527f, 0x9b05688c, 0x1f83d9ab, 0x5be0cd19⟩

/--
`while msg.len() % 64 != 56 { msg.push(0); }`
-/
def pushZeros (msg : Bytes) : Bytes :=
  if msg.length % 64 ≠ 56 then pushZeros (msg ++ [0]) else msg
termination_by (120 - msg.length % 64) % 64
decreasing_by
  rw [List.length_append, List.length_singleton]
  omega

/--
`to_be_bytes` of a `u64`.
-/
def toBeBytes (x : BitVec 64) : Bytes :=
  (List.range 8).map fun i => UInt8.ofNat (x.toNat / 256 ^ (7 - i))

/--
The length is counted in a `u64`.
-/
def padded (data : Bytes) : Bytes :=
  let bitlen : BitVec 64 := BitVec.ofNat 64 data.length * 8
  pushZeros (data ++ [0x80]) ++ toBeBytes bitlen

def fromBeBytes (a b c d : UInt8) : U32 :=
  BitVec.ofNat 32 ([a, b, c, d].foldl (fun n byte => 256 * n + byte.toNat) 0)

/--
The word that the first loop writes to `w[i]`.
-/
def wordAt (chunk : Bytes) (i : Nat) : U32 :=
  fromBeBytes (chunk.getD (4 * i) 0) (chunk.getD (4 * i + 1) 0) (chunk.getD (4 * i + 2) 0)
    (chunk.getD (4 * i + 3) 0)

def load (chunk : Bytes) (w : List U32) : List U32 :=
  (List.range' 0 16).foldl (fun w i => w.set i (wordAt chunk i)) w

/--
One step of the second loop.
-/
def extendStep (w : List U32) (i : Nat) : List U32 :=
  let w15 := w.getD (i - 15) 0
  let w2 := w.getD (i - 2) 0
  let s0 := w15.rotateRight 7 ^^^ w15.rotateRight 18 ^^^ (w15 >>> 3)
  let s1 := w2.rotateRight 17 ^^^ w2.rotateRight 19 ^^^ (w2 >>> 10)
  w.set i (w.getD (i - 16) 0 + s0 + w.getD (i - 7) 0 + s1)

def schedule (chunk : Bytes) : List U32 :=
  (List.range' 16 48).foldl extendStep (load chunk (List.replicate 64 0))

/--
One step of the main loop, where `ki` and `wi` are `K[i]` and `w[i]`.
-/
def round (v : Vars) (ki wi : U32) : Vars :=
  let s1 := v.e.rotateRight 6 ^^^ v.e.rotateRight 11 ^^^ v.e.rotateRight 25
  let ch := (v.e &&& v.f) ^^^ ((~~~ v.e) &&& v.g)
  let t1 := v.hh + s1 + ch + ki + wi
  let s0 := v.a.rotateRight 2 ^^^ v.a.rotateRight 13 ^^^ v.a.rotateRight 22
  let maj := (v.a &&& v.b) ^^^ (v.a &&& v.c) ^^^ (v.b &&& v.c)
  let t2 := s0 + maj
  { hh := v.g, g := v.f, f := v.e, e := v.d + t1, d := v.c, c := v.b, b := v.a, a := t1 + t2 }

def block (h : Vars) (chunk : Bytes) : Vars :=
  let w := schedule chunk
  let v := (List.range 64).foldl (fun v i => round v (k.getD i 0) (w.getD i 0)) h
  ⟨h.a + v.a, h.b + v.b, h.c + v.c, h.d + v.d, h.e + v.e, h.f + v.f, h.g + v.g, h.hh + v.hh⟩

/--
`msg.chunks(64)`
-/
def chunks (msg : Bytes) : List Bytes :=
  if msg = [] then [] else msg.take 64 :: chunks (msg.drop 64)
termination_by msg.length
decreasing_by
  rename_i hmsg
  have := List.length_pos_of_ne_nil hmsg
  rw [List.length_drop]
  omega

/--
`format!("{:08x}", x)`
-/
def format08x (x : U32) : Str :=
  (List.range 8).map fun i => Hex.digit (x.toNat / 16 ^ (7 - i) % 16)

def hex (data : Bytes) : Str :=
  let h := (chunks (padded data)).foldl block init
  [h.a, h.b, h.c, h.d, h.e, h.f, h.g, h.hh].flatMap format08x

/-!
### The words
-/

theorem toNat_rotateRight (x : U32) (n : Nat) (hn : n < 32)
    : (x.rotateRight n).toNat = Sha256.rotr x.toNat n := by
  have hx := x.isLt
  have hmul : x.toNat * 2 ^ (32 - n) % 2 ^ 32 = x.toNat % 2 ^ n * 2 ^ (32 - n) := by
    rw [← Nat.mul_mod_mul_right, ← Nat.pow_add, Nat.add_sub_cancel' (by omega)]
  have hlt : x.toNat / 2 ^ n < 2 ^ (32 - n) := by
    rw [Nat.div_lt_iff_lt_mul (by positivity), ← Nat.pow_add, Nat.sub_add_cancel (by omega)]
    exact hx
  rw [BitVec.toNat_rotateRight, Nat.mod_eq_of_lt hn, Nat.shiftRight_eq_div_pow, Nat.shiftLeft_eq,
    hmul, Nat.or_comm, ← Nat.shiftLeft_eq, ← Nat.shiftLeft_add_eq_or_of_lt hlt, Nat.add_comm,
    Nat.shiftLeft_eq, Sha256.rotr]

theorem toNat_not (x : U32) : (~~~ x).toNat = x.toNat ^^^ (2 ^ 32 - 1) := by
  rw [← BitVec.xor_allOnes, BitVec.toNat_xor, BitVec.toNat_allOnes]

def Vars.state (v : Vars) : Sha256.State :=
  ⟨v.a.toNat, v.b.toNat, v.c.toNat, v.d.toNat, v.e.toNat, v.f.toNat, v.g.toNat, v.hh.toNat⟩

theorem state_round (v : Vars) (ki wi : U32)
    : (round v ki wi).state = Sha256.round v.state (ki.toNat + wi.toNat) := by
  simp only [Vars.state, round, Sha256.round, BitVec.toNat_add, BitVec.toNat_xor, BitVec.toNat_and,
    toNat_not, toNat_rotateRight _ 2 (by decide), toNat_rotateRight _ 6 (by decide),
    toNat_rotateRight _ 11 (by decide), toNat_rotateRight _ 13 (by decide),
    toNat_rotateRight _ 22 (by decide), toNat_rotateRight _ 25 (by decide), Nat.mod_add_mod,
    Nat.add_mod_mod, Nat.add_assoc]

theorem foldl_set {α : Type} (f : Nat → α) (n i : Nat) (w : List α) (h : i + n ≤ w.length)
    : (List.range' i n).foldl (fun w j => w.set j (f j)) w
        = w.take i ++ (List.range' i n).map f ++ w.drop (i + n) := by
  induction n generalizing i w with
  | zero => simp
  | succ n ih =>
    rw [List.range'_succ, List.foldl_cons, ih _ _ (by simp; omega), List.take_set,
      List.drop_set_of_lt (by omega), List.take_succ_eq_append_getElem (by omega : i < w.length),
      List.set_append_right _ _ (by simp)]
    simp [Nat.min_eq_left (by omega : i ≤ w.length), Nat.add_right_comm, Nat.add_assoc]

theorem toNat_fromBeBytes (a b c d : UInt8)
    : (fromBeBytes a b c d).toNat = [a, b, c, d].foldl (fun n byte => 256 * n + byte.toNat) 0 := by
  have ha := a.toNat_lt
  have hb := b.toNat_lt
  have hc := c.toNat_lt
  have hd := d.toNat_lt
  rw [fromBeBytes, BitVec.toNat_ofNat, Nat.mod_eq_of_lt]
  simp only [List.foldl_cons, List.foldl_nil]
  omega

/--
The bytes of whole words.
-/
theorem words_eq (n : Nat) (msg : Bytes) (h : msg.length = 4 * n)
    : Sha256.words msg = (List.range n).map fun i => (wordAt msg i).toNat := by
  induction n generalizing msg with
  | zero =>
    rw [List.length_eq_zero_iff.mp h]
    rfl
  | succ n ih =>
    match msg, h with
    | a :: b :: c :: d :: rest, h =>
      rw [Sha256.words, ih rest (by simpa [Nat.mul_succ] using h), List.range_succ_eq_map,
        List.map_cons, List.map_map, ← toNat_fromBeBytes]
      rfl

theorem load_eq (chunk : Bytes)
    : load chunk (List.replicate 64 0)
        = (List.range 16).map (wordAt chunk) ++ List.replicate 48 0 := by
  rw [load, foldl_set _ _ _ _ (by simp), List.range_eq_range']
  simp

/--
The word that a step writes, from the words of the window.
-/
theorem extendStep_eq (w : List U32) (i : Nat) (hi : 16 ≤ i) (h : i < w.length)
    : ∃ x,
        extendStep w i = w.set i x
          ∧ ∀ n,
              Sha256.extend (n + 1) (((w.take i).drop (i - 16)).map BitVec.toNat)
                = x.toNat
                  :: Sha256.extend n (((w.take i ++ [x]).drop (i + 1 - 16)).map BitVec.toNat) := by
  have hget (j : Nat) (hj : j < 16)
      : (((w.take i).drop (i - 16)).map BitVec.toNat).getD j 0
          = (w.getD (i - 16 + j) 0).toNat := by
    rw [List.getD_eq_getElem?_getD, List.getElem?_map, List.getElem?_drop,
      List.getElem?_take_of_lt (by omega), List.getElem?_eq_getElem (by omega),
      List.getD_eq_getElem?_getD, List.getElem?_eq_getElem (by omega)]
    rfl
  refine ⟨_, rfl, fun n => ?_⟩
  have htail (x : U32)
      : ((w.take i ++ [x]).drop (i + 1 - 16)).map BitVec.toNat
          = (((w.take i).drop (i - 16)).map BitVec.toNat).tail ++ [x.toNat] := by
    rw [List.drop_append_of_le_length (by rw [List.length_take]; omega), List.map_append,
      ← List.drop_one, ← List.map_drop, List.drop_drop, show i - 16 + 1 = i + 1 - 16 by omega]
    rfl
  rw [Sha256.extend, htail, hget 0 (by decide), hget 1 (by decide), hget 9 (by decide),
    hget 14 (by decide), show i - 16 + 1 = i - 15 by omega, show i - 16 + 9 = i - 7 by omega,
    show i - 16 + 14 = i - 2 by omega]
  simp only [BitVec.toNat_add, BitVec.toNat_xor, BitVec.toNat_ushiftRight,
    Nat.shiftRight_eq_div_pow, toNat_rotateRight _ 7 (by decide),
    toNat_rotateRight _ 17 (by decide), toNat_rotateRight _ 18 (by decide),
    toNat_rotateRight _ 19 (by decide), Nat.mod_add_mod, Nat.add_zero]

/--
Sixteen words of the list are the window of the standard.
-/
theorem extend_eq (n i : Nat) (w : List U32) (hi : 16 ≤ i) (h : i + n ≤ w.length)
    : (((List.range' i n).foldl extendStep w).take (i + n)).map BitVec.toNat
        = (w.take i).map BitVec.toNat
          ++ Sha256.extend n (((w.take i).drop (i - 16)).map BitVec.toNat) := by
  induction n generalizing i w with
  | zero => simp [Sha256.extend]
  | succ n ih =>
    rcases extendStep_eq w i hi (by omega) with ⟨x, hstep, hextend⟩
    have htake : (w.set i x).take (i + 1) = w.take i ++ [x] := by
      rw [List.take_set, List.take_succ_eq_append_getElem (by omega),
        List.set_append_right _ _ (by simp), List.length_take, Nat.min_eq_left (by omega),
        Nat.sub_self]
      rfl
    rw [List.range'_succ, List.foldl_cons, hstep, show i + (n + 1) = i + 1 + n by omega,
      ih _ _ (by omega) (by rw [List.length_set]; omega), htake, hextend, List.map_append,
      List.append_assoc]
    rfl

theorem length_load (chunk : Bytes) : (load chunk (List.replicate 64 0)).length = 64 := by
  rw [load_eq, List.length_append, List.length_map, List.length_range, List.length_replicate]

theorem length_schedule (chunk : Bytes) : (schedule chunk).length = 64 := by
  have hfold (l : List Nat) : ∀ (w : List U32), (l.foldl extendStep w).length = w.length := by
    induction l with
    | nil => intro w; rfl
    | cons i l ih =>
      intro w
      rw [List.foldl_cons, ih]
      exact List.length_set
  rw [schedule, hfold, length_load]

theorem schedule_eq (chunk : Bytes) (h : chunk.length = 64)
    : (schedule chunk).map BitVec.toNat
        = Sha256.words chunk ++ Sha256.extend 48 (Sha256.words chunk) := by
  have htake
      : ((load chunk (List.replicate 64 0)).take 16).map BitVec.toNat = Sha256.words chunk := by
    rw [load_eq, List.take_append_of_le_length (by simp), List.take_of_length_le (by simp),
      List.map_map, words_eq 16 chunk h]
    rfl
  have hextend :=
    extend_eq 48 16 (load chunk (List.replicate 64 0)) (by decide) (by rw [length_load])
  rw [htake, Nat.sub_self, List.drop_zero, htake] at hextend
  rw [← hextend, ← schedule, List.take_of_length_le (by rw [length_schedule])]

theorem zipWith_eq (a b : List U32) (n : Nat) (ha : a.length = n) (hb : b.length = n)
    : List.zipWith (· + ·) (a.map BitVec.toNat) (b.map BitVec.toNat)
        = (List.range n).map fun i => (a.getD i 0).toNat + (b.getD i 0).toNat := by
  apply List.ext_getElem
  . simp [ha, hb]
  . intro i hi _
    simp only [List.length_zipWith, List.length_map] at hi
    simp [List.getElem?_eq_getElem (show i < a.length by omega),
      List.getElem?_eq_getElem (show i < b.length by omega)]

theorem toNat_k : k.map BitVec.toNat = Sha256.roundConstants := rfl

theorem foldl_round (l : List Nat) (f g : Nat → U32) (v : Vars)
    : (l.foldl (fun v i => round v (f i) (g i)) v).state
        = (l.map fun i => (f i).toNat + (g i).toNat).foldl Sha256.round v.state := by
  induction l generalizing v with
  | nil => rfl
  | cons i l ih => rw [List.foldl_cons, ih, List.map_cons, List.foldl_cons, state_round]

theorem state_add (h v : Vars)
    : Vars.state
        ⟨h.a + v.a, h.b + v.b, h.c + v.c, h.d + v.d, h.e + v.e, h.f + v.f, h.g + v.g, h.hh + v.hh⟩
        = h.state.add v.state := by
  simp only [Vars.state, Sha256.State.add, BitVec.toNat_add]

theorem state_block (h : Vars) (chunk : Bytes) (hchunk : chunk.length = 64)
    : (block h chunk).state = Sha256.compress h.state (Sha256.words chunk) := by
  rw [Sha256.compress, ← schedule_eq chunk hchunk, ← toNat_k,
    zipWith_eq _ _ 64 rfl (length_schedule chunk), ← foldl_round, block, state_add]

/-!
### The message
-/

theorem pushZeros_eq (msg : Bytes)
    : pushZeros msg = msg ++ List.replicate ((120 - msg.length % 64) % 64) 0 := by
  induction msg using pushZeros.induct with
  | case1 msg h ih =>
    rw [pushZeros, if_pos h, ih, List.append_assoc, List.length_append, List.length_singleton,
      show (120 - msg.length % 64) % 64 = (120 - (msg.length + 1) % 64) % 64 + 1 by omega,
      List.replicate_succ]
    rfl
  | case2 msg h =>
    rw [pushZeros, if_neg h, show (120 - msg.length % 64) % 64 = 0 by omega]
    exact (List.append_nil _).symm

theorem padded_eq (data : Bytes) (h : data.length < 2 ^ 61) : padded data = Sha256.pad data := by
  have hbits : (BitVec.ofNat 64 data.length * 8).toNat = 8 * data.length := by
    rw [BitVec.toNat_mul, BitVec.toNat_ofNat, show (8 : BitVec 64).toNat = 8 from rfl]
    omega
  rw [padded, pushZeros_eq, toBeBytes, hbits, Sha256.pad, List.length_append,
    List.length_singleton,
    show (120 - (data.length + 1) % 64) % 64 = (119 - data.length % 64) % 64 by omega]
  simp only [List.append_assoc, List.cons_append, List.nil_append]

theorem length_pad (data : Bytes) : ∃ n, (Sha256.pad data).length = 64 * n := by
  refine ⟨((119 - data.length % 64) % 64 + data.length + 9) / 64, ?_⟩
  simp only [Sha256.pad, List.length_append, List.length_cons, List.length_replicate,
    List.length_map, List.length_range]
  omega

/-!
### The blocks
-/

theorem words_append (n : Nat) (msg rest : Bytes) (h : msg.length = 4 * n)
    : Sha256.words (msg ++ rest) = Sha256.words msg ++ Sha256.words rest := by
  induction n generalizing msg with
  | zero => rw [List.length_eq_zero_iff.mp h]; rfl
  | succ n ih =>
    match msg, h with
    | a :: b :: c :: d :: msg, h =>
      rw [List.cons_append, List.cons_append, List.cons_append, List.cons_append, Sha256.words,
        ih msg (by simpa [Nat.mul_succ] using h), Sha256.words, List.cons_append]

theorem length_words (n : Nat) (msg : Bytes) (h : msg.length = 4 * n)
    : (Sha256.words msg).length = n := by
  rw [words_eq n msg h, List.length_map, List.length_range]

theorem blocks_words (n : Nat) (msg : Bytes) (h : msg.length = 64 * n)
    : Sha256.blocks n (Sha256.words msg) = (chunks msg).map Sha256.words
        ∧ ∀ chunk ∈ chunks msg, chunk.length = 64 := by
  induction n generalizing msg with
  | zero =>
    rw [List.length_eq_zero_iff.mp h, chunks]
    simp [Sha256.blocks]
  | succ n ih =>
    have htake : (msg.take 64).length = 64 := by rw [List.length_take]; omega
    have hwords := words_append 16 (msg.take 64) (msg.drop 64) htake
    have hlen := length_words 16 (msg.take 64) htake
    rcases ih (msg.drop 64) (by rw [List.length_drop]; omega) with ⟨hblocks, hall⟩
    have hne : msg ≠ [] := by
      intro hnil
      rw [hnil] at h
      simp at h
    rw [List.take_append_drop] at hwords
    rw [chunks, if_neg hne, Sha256.blocks, hwords, List.take_left' hlen, List.drop_left' hlen,
      hblocks, List.map_cons]
    refine ⟨rfl, fun chunk hchunk => ?_⟩
    rcases List.mem_cons.mp hchunk with rfl | hchunk
    . exact htake
    . exact hall chunk hchunk

theorem state_blocks (cs : List Bytes) (h : Vars) (hall : ∀ chunk ∈ cs, chunk.length = 64)
    : (cs.foldl block h).state = (cs.map Sha256.words).foldl Sha256.compress h.state := by
  induction cs generalizing h with
  | nil => rfl
  | cons chunk cs ih =>
    rw [List.foldl_cons, ih _ fun c hc => hall c (List.mem_cons_of_mem _ hc),
      state_block h chunk (hall chunk List.mem_cons_self), List.map_cons, List.foldl_cons]

theorem format08x_eq (x : U32) : format08x x = Hex.ofBytes (Sha256.bytesOfWord x.toNat) := by
  have hx := x.isLt
  simp only [format08x, Hex.ofBytes, Sha256.bytesOfWord, List.flatMap_cons, List.flatMap_nil,
    UInt8.toNat_ofNat', show List.range 8 = [0, 1, 2, 3, 4, 5, 6, 7] from rfl, List.map_cons,
    List.map_nil, List.cons_append, List.nil_append, List.cons.injEq, and_true]
  refine ⟨?_, ?_, ?_, ?_, ?_, ?_, ?_, ?_⟩ <;> (congr 1; omega)

/--
The hash of a string whose length in bits fits a `u64`.
-/
theorem hex_eq (data : Bytes) (h : data.length < 2 ^ 61)
    : hex data = Hex.ofBytes (sha256 data) := by
  rcases length_pad data with ⟨n, hn⟩
  rcases blocks_words n (Sha256.pad data) hn with ⟨hblocks, hall⟩
  have hlen := length_words (16 * n) (Sha256.pad data) (by omega)
  have hstate := state_blocks _ init hall
  rw [← hblocks] at hstate
  have hdigest : sha256 data = ((chunks (padded data)).foldl block init).state.toBytes := by
    rw [padded_eq data h, hstate]
    show Sha256.State.toBytes _ = _
    rw [hlen, Nat.mul_div_cancel_left _ (by decide)]
    rfl
  rw [hdigest]
  simp only [hex, Sha256.State.toBytes, Vars.state, List.flatMap_cons, List.flatMap_nil,
    format08x_eq, Hex.ofBytes, List.flatMap_append]

end RustSha256
end CryptoValid
