import CryptoValid.Lib.Bytes
import Mathlib.Algebra.Group.Nat.Defs

/-!
This module contains authenticated encryption with associated data, and AES-256-GCM as an instance.
The only law is that what was encrypted can be decrypted with the same key, nonce and data.
-/

/--
`none` stands for a refusal: input that is too long, or a tag that does not match.
-/
structure Aead where
  maxSize : Nat
  encrypt : (key nonce data aad : Bytes) → Option Bytes
  decrypt : (key nonce data aad : Bytes) → Option Bytes
  encrypt_isSome : ∀ (key nonce data aad : Bytes), key.length = 32 → nonce.length = 12 →
    ((encrypt key nonce data aad).isSome ↔ data.length ≤ maxSize ∧ aad.length ≤ maxSize)
  decrypt_encrypt : ∀ (key nonce data aad ct : Bytes), encrypt key nonce data aad = some ct →
    decrypt key nonce ct aad = some data

namespace Aes

def sbox : List UInt8 :=
  [0x63, 0x7c, 0x77, 0x7b, 0xf2, 0x6b, 0x6f, 0xc5, 0x30, 0x01, 0x67, 0x2b, 0xfe, 0xd7, 0xab, 0x76,
   0xca, 0x82, 0xc9, 0x7d, 0xfa, 0x59, 0x47, 0xf0, 0xad, 0xd4, 0xa2, 0xaf, 0x9c, 0xa4, 0x72, 0xc0,
   0xb7, 0xfd, 0x93, 0x26, 0x36, 0x3f, 0xf7, 0xcc, 0x34, 0xa5, 0xe5, 0xf1, 0x71, 0xd8, 0x31, 0x15,
   0x04, 0xc7, 0x23, 0xc3, 0x18, 0x96, 0x05, 0x9a, 0x07, 0x12, 0x80, 0xe2, 0xeb, 0x27, 0xb2, 0x75,
   0x09, 0x83, 0x2c, 0x1a, 0x1b, 0x6e, 0x5a, 0xa0, 0x52, 0x3b, 0xd6, 0xb3, 0x29, 0xe3, 0x2f, 0x84,
   0x53, 0xd1, 0x00, 0xed, 0x20, 0xfc, 0xb1, 0x5b, 0x6a, 0xcb, 0xbe, 0x39, 0x4a, 0x4c, 0x58, 0xcf,
   0xd0, 0xef, 0xaa, 0xfb, 0x43, 0x4d, 0x33, 0x85, 0x45, 0xf9, 0x02, 0x7f, 0x50, 0x3c, 0x9f, 0xa8,
   0x51, 0xa3, 0x40, 0x8f, 0x92, 0x9d, 0x38, 0xf5, 0xbc, 0xb6, 0xda, 0x21, 0x10, 0xff, 0xf3, 0xd2,
   0xcd, 0x0c, 0x13, 0xec, 0x5f, 0x97, 0x44, 0x17, 0xc4, 0xa7, 0x7e, 0x3d, 0x64, 0x5d, 0x19, 0x73,
   0x60, 0x81, 0x4f, 0xdc, 0x22, 0x2a, 0x90, 0x88, 0x46, 0xee, 0xb8, 0x14, 0xde, 0x5e, 0x0b, 0xdb,
   0xe0, 0x32, 0x3a, 0x0a, 0x49, 0x06, 0x24, 0x5c, 0xc2, 0xd3, 0xac, 0x62, 0x91, 0x95, 0xe4, 0x79,
   0xe7, 0xc8, 0x37, 0x6d, 0x8d, 0xd5, 0x4e, 0xa9, 0x6c, 0x56, 0xf4, 0xea, 0x65, 0x7a, 0xae, 0x08,
   0xba, 0x78, 0x25, 0x2e, 0x1c, 0xa6, 0xb4, 0xc6, 0xe8, 0xdd, 0x74, 0x1f, 0x4b, 0xbd, 0x8b, 0x8a,
   0x70, 0x3e, 0xb5, 0x66, 0x48, 0x03, 0xf6, 0x0e, 0x61, 0x35, 0x57, 0xb9, 0x86, 0xc1, 0x1d, 0x9e,
   0xe1, 0xf8, 0x98, 0x11, 0x69, 0xd9, 0x8e, 0x94, 0x9b, 0x1e, 0x87, 0xe9, 0xce, 0x55, 0x28, 0xdf,
   0x8c, 0xa1, 0x89, 0x0d, 0xbf, 0xe6, 0x42, 0x68, 0x41, 0x99, 0x2d, 0x0f, 0xb0, 0x54, 0xbb, 0x16]

/--
The table as one number, so that a look-up is a shift.
-/
def sboxPacked : Nat := sbox.foldr (fun b n => 256 * n + b.toNat) 0

def subByte (b : UInt8) : UInt8 := UInt8.ofNat (sboxPacked >>> (8 * b.toNat))

def xorBytes (a b : Bytes) : Bytes := List.zipWith (· ^^^ ·) a b

def xtime (b : UInt8) : UInt8 := (b <<< 1) ^^^ (if b &&& 0x80 = 0 then 0 else 0x1b)

/--
Entry `r + 4 * c` moves from column `c + r` to column `c`.
-/
def shiftRows (block : Bytes) : Bytes :=
  (List.range 16).map fun i => block.getD (i % 4 + 4 * ((i / 4 + i % 4) % 4)) 0

def mixColumns : Bytes → Bytes
  | a :: b :: c :: d :: rest =>
    let all := a ^^^ b ^^^ c ^^^ d
    (a ^^^ all ^^^ xtime (a ^^^ b)) :: (b ^^^ all ^^^ xtime (b ^^^ c)) ::
      (c ^^^ all ^^^ xtime (c ^^^ d)) :: (d ^^^ all ^^^ xtime (d ^^^ a)) :: mixColumns rest
  | _ => []

/--
The next `n` words of the key schedule; `window` holds the last eight, `i` is the index of the next
one.
-/
def expand (n i : Nat) (rcon : UInt8) (window : List Bytes) : List Bytes :=
  match n with
  | 0 => []
  | n + 1 =>
    let last := window.getD 7 []
    let temp :=
      if i % 8 = 0 then
        xorBytes ((last.rotateLeft 1).map subByte) [rcon, 0, 0, 0]
      else if i % 8 = 4 then
        last.map subByte
      else
        last
    let word := xorBytes (window.getD 0 []) temp
    word :: expand n (i + 1) (if i % 8 = 0 then xtime rcon else rcon) (window.tail ++ [word])

def chunks (size : Nat) : Nat → Bytes → List Bytes
  | 0, _ => []
  | n + 1, bytes => bytes.take size :: chunks size n (bytes.drop size)

/--
The fifteen round keys of a 256 bit key.
-/
def roundKeys (key : Bytes) : List Bytes :=
  let first := chunks 4 8 key
  chunks 16 15 (first ++ expand 52 8 1 first).flatten

def rounds : List Bytes → Bytes → Bytes
  | [], block => block
  | [last], block => xorBytes (shiftRows (block.map subByte)) last
  | k :: ks, block => rounds ks (xorBytes (mixColumns (shiftRows (block.map subByte))) k)

/--
One block, written with its length made plain.
-/
def encryptBlock (keys : List Bytes) (block : Bytes) : Bytes :=
  let out := rounds keys.tail (xorBytes block (keys.headD []))
  (List.range 16).map fun i => out.getD i 0

def toNat (bytes : Bytes) : Nat := bytes.foldl (fun n b => 256 * n + b.toNat) 0

def ofNat (size n : Nat) : Bytes :=
  (List.range size).map fun i => UInt8.ofNat (n / 256 ^ (size - 1 - i))

/--
Multiplication in the field of GCM, one bit of `x` at a time from the most significant one.
-/
def gmul (x y : Nat) : Nat :=
  go 128 y 0
where
  go : Nat → Nat → Nat → Nat
    | 0, _, z => z
    | n + 1, v, z =>
      go n (if v % 2 = 0 then v / 2 else (v / 2) ^^^ (0xe1 * 2 ^ 120))
        (if x.testBit n then z ^^^ v else z)

def ghash (h : Nat) (blocks : List Bytes) : Nat :=
  blocks.foldl (fun y block => gmul (y ^^^ toNat block) h) 0

def pad16 (bytes : Bytes) : List Bytes :=
  chunks 16 ((bytes.length + 15) / 16)
    (bytes ++ List.replicate (16 * ((bytes.length + 15) / 16) - bytes.length) 0)

def keystream (keys : List Bytes) (nonce : Bytes) (n : Nat) : Bytes :=
  (List.range ((n + 15) / 16)).flatMap fun i => encryptBlock keys (nonce ++ ofNat 4 (i + 2))

def tag (keys : List Bytes) (nonce ct aad : Bytes) : Bytes :=
  let h := toNat (encryptBlock keys (List.replicate 16 0))
  let lengths := ofNat 8 (8 * aad.length) ++ ofNat 8 (8 * ct.length)
  let s := ghash h (pad16 aad ++ pad16 ct ++ [lengths])
  ofNat 16 (s ^^^ toNat (encryptBlock keys (nonce ++ ofNat 4 1)))

def gcmMaxSize : Nat := 2 ^ 31 - 1

def gcmEncrypt (key nonce data aad : Bytes) : Option Bytes :=
  if data.length ≤ gcmMaxSize ∧ aad.length ≤ gcmMaxSize then
    let keys := roundKeys key
    let ct := xorBytes data (keystream keys nonce data.length)
    some (ct ++ tag keys nonce ct aad)
  else
    none

def gcmDecrypt (key nonce data aad : Bytes) : Option Bytes :=
  let keys := roundKeys key
  let n := data.length - 16
  let ct := data.take n
  if data.drop n = tag keys nonce ct aad then
    some (xorBytes ct (keystream keys nonce n))
  else
    none

@[simp]
theorem length_tag (keys : List Bytes) (nonce ct aad : Bytes)
    : (tag keys nonce ct aad).length = 16 := by
  simp [tag, ofNat]

theorem length_keystream (keys : List Bytes) (nonce : Bytes) (n : Nat)
    : n ≤ (keystream keys nonce n).length := by
  simp [keystream, encryptBlock, List.length_flatMap]
  omega

theorem length_xorBytes (a b : Bytes) (h : a.length ≤ b.length)
    : (xorBytes a b).length = a.length := by
  simp [xorBytes, h]

theorem xorBytes_xorBytes (a b : Bytes) (h : a.length ≤ b.length)
    : xorBytes (xorBytes a b) b = a := by
  induction a generalizing b with
  | nil => rfl
  | cons x a ih =>
    cases b with
    | nil => simp at h
    | cons y b =>
      have htail := ih b (by simpa using h)
      simp only [xorBytes, List.zipWith_cons_cons, UInt8.xor_assoc, UInt8.xor_self, UInt8.xor_zero,
        List.cons.injEq, true_and] at htail ⊢
      exact htail

theorem gcmDecrypt_gcmEncrypt (key nonce data aad ct : Bytes)
    (h : gcmEncrypt key nonce data aad = some ct) : gcmDecrypt key nonce ct aad = some data := by
  unfold gcmEncrypt at h
  split at h
  . simp only [Option.some.injEq] at h
    subst h
    have hks := length_keystream (roundKeys key) nonce data.length
    have hlen := length_xorBytes data _ hks
    simp only [gcmDecrypt, List.length_append, length_tag, Nat.add_sub_cancel,
      List.drop_left', List.take_left', ↓reduceIte, hlen, xorBytes_xorBytes _ _ hks]
  . simp at h

end Aes

def aes256Gcm : Aead where
  maxSize := Aes.gcmMaxSize
  encrypt := Aes.gcmEncrypt
  decrypt := Aes.gcmDecrypt
  encrypt_isSome key nonce data aad _ _ := by
    unfold Aes.gcmEncrypt
    split <;> simp_all
  decrypt_encrypt := Aes.gcmDecrypt_gcmEncrypt
